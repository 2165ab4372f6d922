import FiniteAutomata.Grammar.Duality

/-!
# Grammars that are built

A grammar is built from its start symbol by adding non-terminals and productions. Its non-terminals are then
listed once each, the start symbol first, and are what has an entry for productions (`Built.listed`).
-/
namespace FiniteAutomata.Grammar

/-- The grammar is built by calls that succeed. A call that fails leaves it as it is. -/
inductive Built : Grammar → Prop where
  | new (terminals : Alphabet) (start : String) : Built (.new terminals start)
  | addNonTerminal {g g' : Grammar} {name : String} (h : Built g) (h' : g.addNonTerminal name = .ok g') :
      Built g'
  | addProduction {g g' : Grammar} {name production : String} (h : Built g)
      (h' : g.addProduction name production = .ok g') : Built g'

/-- The non-terminals are listed once each, the start symbol first, and are what has productions. -/
structure Listed (g : Grammar) : Prop where
  nodup : g.nonTerminals.Nodup
  defined : ∀ n, g.isDefined n = true ↔ n ∈ g.nonTerminals
  start : ∃ ns, g.nonTerminals = g.start :: ns

variable {g g' : Grammar} {name production : String}

theorem listed_new (terminals : Alphabet) (start : String) : (new terminals start).Listed := by
  refine ⟨by simp [new], fun n => ?_, ⟨[], rfl⟩⟩
  rw [isDefined, new, Table.contains_insert, List.mem_singleton]
  refine or_iff_left ?_
  intro h
  cases h

theorem Listed.addNonTerminal (h : g.Listed) (h' : g.addNonTerminal name = .ok g') : g'.Listed := by
  unfold Grammar.addNonTerminal at h'
  split at h'
  · cases h'
  · rename_i hd
    obtain rfl := Except.ok.inj h'
    have hm : name ∉ g.nonTerminals := fun hm => hd ((h.defined name).2 hm)
    obtain ⟨ns, hns⟩ := h.start
    refine ⟨List.nodup_append.2 ⟨h.nodup, by simp, by grind⟩, fun n => ?_, ⟨ns ++ [name], ?_⟩⟩
    · rw [isDefined, Table.contains_insert, List.mem_append, List.mem_singleton, ← h.defined n, or_comm]
      rfl
    · simp only [hns, List.cons_append]

theorem Listed.addProduction (h : g.Listed) (h' : g.addProduction name production = .ok g') :
    g'.Listed := by
  unfold Grammar.addProduction at h'
  split at h'
  · rename_i ps hps
    obtain rfl := Except.ok.inj h'
    have hd : g.isDefined name = true := Option.isSome_iff_exists.2 ⟨ps, hps⟩
    refine ⟨h.nodup, fun n => ?_, h.start⟩
    rw [isDefined, Table.contains_insert, ← h.defined n]
    exact or_iff_right_of_imp fun e => e ▸ hd
  · cases h'

/-- **The non-terminals of a grammar that is built are listed.** -/
theorem Built.listed (h : g.Built) : g.Listed := by
  induction h with
  | new terminals start => exact listed_new terminals start
  | addNonTerminal h h' ih => exact ih.addNonTerminal h'
  | addProduction h h' ih => exact ih.addProduction h'

theorem mem_productionsOf :
    production ∈ g.productionsOf name ↔ ∃ e ∈ g.productions.entries, e.1 = name ∧ production ∈ e.2 := by
  constructor
  · intro h
    unfold productionsOf at h
    cases hps : g.productions.get? name with
    | none => simp [hps] at h
    | some ps =>
      rw [hps, Option.getD_some] at h
      exact ⟨(name, ps), Table.get?_eq_some.1 hps, rfl, h⟩
  · rintro ⟨⟨n, ps⟩, he, rfl, h⟩
    rwa [productionsOf, Table.get?_eq_some.2 he, Option.getD_some]

end FiniteAutomata.Grammar
