import FiniteAutomata.Proofs.Subset.Discovery
import Mathlib.Data.List.Induction
import Mathlib.Data.List.Shortlex

/-!
# States in the order of their least words

Words are ordered by their lengths, and words of one length by the code points of their symbols. Following
the transitions that discovered the states leads to each state by its least word, and later states have
later words. Main theorem: the states of a determinized automaton are numbered in the order of their least
words (`lt_iff_leastWord_determinize`).
-/
namespace FiniteAutomata

/-! ## The order of words -/

/-- The first word is shorter, or as long and before the second in the order of code points. -/
def Precedes (u v : List Char) : Prop := List.Shortlex (· < ·) u v

variable {u v w : List Char} {c d : Char}

theorem precedes_iff : Precedes u v ↔
    u.length < v.length ∨ u.length = v.length ∧ List.Lex (· < ·) u v := List.shortlex_def

theorem Precedes.asymm (h : Precedes u v) : ¬ Precedes v u := fun h' =>
  (inferInstance : Std.Asymm (List.Shortlex (· < · : Char → Char → Prop))).asymm u v h h'

theorem Precedes.trans (h : Precedes u v) (h' : Precedes v w) : Precedes u w := by
  rw [precedes_iff] at *
  rcases h with h | ⟨h, hlex⟩
  · omega
  · rcases h' with h' | ⟨h', hlex'⟩
    · omega
    · exact .inr ⟨h.trans h', List.lex_trans Char.lt_trans hlex hlex'⟩

theorem precedes_of_ne_nil (h : u ≠ []) : Precedes [] u :=
  List.Shortlex.of_length_lt (List.length_pos_iff.2 h)

/-- Words of one length that differ keep their order when each is continued. -/
theorem lex_append {s t : List Char} (h : List.Lex (· < ·) u v) (hlength : u.length = v.length) :
    List.Lex (· < ·) (u ++ s) (v ++ t) := by
  induction h with
  | nil => cases hlength
  | cons _ ih => exact .cons (ih (Nat.succ.inj hlength))
  | rel h => exact .rel h

theorem Precedes.concat (h : Precedes u v) (c d : Char) : Precedes (u ++ [c]) (v ++ [d]) := by
  rw [precedes_iff, List.length_append, List.length_append, List.length_singleton, List.length_singleton]
  rcases precedes_iff.1 h with h | ⟨h, hlex⟩
  · exact .inl (by omega)
  · exact .inr ⟨by omega, lex_append hlex h⟩

theorem precedes_concat_of_lt (h : c < d) (u : List Char) : Precedes (u ++ [c]) (u ++ [d]) :=
  List.Shortlex.append_left ((List.shortlex_singleton_iff c d).2 h) u

namespace Automaton

/-- The word is the least one that leads from the initial state to the state. -/
structure LeastWord (b : Automaton) (q : Nat) (w : List Char) : Prop where
  leads : b.Leads b.initial w q
  least : ∀ v, b.Leads b.initial v q → v = w ∨ Precedes w v

/-- The word along the transitions that discovered the states on the way. -/
inductive DiscoveryWord (b : Automaton) : Nat → List Char → Prop where
  | initial : DiscoveryWord b 0 []
  | concat {q r : Nat} {c : Char} {w : List Char} :
      DiscoveryWord b q w → b.Discovers q c r → DiscoveryWord b r (w ++ [c])

/-- The states are the numbers below `n`. Each but the initial one was discovered, and each symbol leads from
a state to one state at most. -/
structure BreadthFirst (b : Automaton) (n : Nat) : Prop where
  initial : b.initial = 0
  pos : 0 < n
  targets : ∀ q label r, b.HasEdge q label r → r < n
  functional : ∀ q c r t, b.HasEdge q (some c) r → b.HasEdge q (some c) t → r = t
  discovered : ∀ r, 0 < r → r < n → ∃ q c, b.Discovers q c r

variable {b : Automaton} {n q r : Nat}

theorem Leads.exists_of_concat {p : Nat} (h : b.Leads p (w ++ [c]) r) :
    ∃ q, b.Leads p w q ∧ b.HasEdge q (some c) r := by
  induction w generalizing p with
  | nil =>
    obtain ⟨s, t, hs, ht, h⟩ := leads_cons.1 h
    obtain rfl := leads_nil.1 h
    exact ⟨p, .refl p, s, hs, ht⟩
  | cons d w ih =>
    obtain ⟨s, t, hs, ht, h⟩ := leads_cons.1 h
    obtain ⟨q, hq, hedge⟩ := ih h
    exact ⟨q, .step hs ht hq, hedge⟩

/-! ## Words of discovery -/

theorem DiscoveryWord.eq_nil (h : b.DiscoveryWord 0 w) : w = [] := by
  cases h with
  | initial => rfl
  | concat _ hd => exact absurd hd.lt (Nat.not_lt_zero _)

theorem DiscoveryWord.leads (h : b.DiscoveryWord q w) : b.Leads 0 w q := by
  induction h with
  | initial => exact .refl 0
  | concat _ hd ih =>
    obtain ⟨s, hs, hr⟩ := hd.edge
    exact ih.snoc hs hr

/-- The last transition of the word is the one that discovered the state. -/
theorem DiscoveryWord.exists_of_pos (h : b.DiscoveryWord r w) (hr : 0 < r) :
    ∃ q c v, b.DiscoveryWord q v ∧ b.Discovers q c r ∧ w = v ++ [c] := by
  cases h with
  | initial => exact absurd hr (Nat.lt_irrefl 0)
  | concat hq hd => exact ⟨_, _, _, hq, hd, rfl⟩

theorem DiscoveryWord.unique (h : b.DiscoveryWord q u) (h' : b.DiscoveryWord q v) : u = v := by
  induction h generalizing v with
  | initial => exact h'.eq_nil.symm
  | concat _ hd ih =>
    obtain ⟨p, c, w, hp, hd', rfl⟩ := h'.exists_of_pos (Nat.zero_lt_of_lt hd.lt)
    obtain ⟨rfl, rfl⟩ := hd.unique hd'
    rw [ih hp]

namespace BreadthFirst

theorem lt_of_leads (h : b.BreadthFirst n) (hw : b.Leads 0 w q) : q < n := by
  induction w using List.reverseRecOn with
  | nil =>
    obtain rfl := leads_nil.1 hw
    exact h.pos
  | append_singleton w c _ =>
    obtain ⟨p, -, hedge⟩ := hw.exists_of_concat
    exact h.targets p (some c) q hedge

theorem exists_discoveryWord (h : b.BreadthFirst n) (hq : q < n) : ∃ w, b.DiscoveryWord q w := by
  induction q using Nat.strongRecOn with
  | ind q ih =>
    rcases Nat.eq_zero_or_pos q with rfl | hpos
    · exact ⟨[], .initial⟩
    · obtain ⟨p, c, hd⟩ := h.discovered q hpos hq
      obtain ⟨w, hw⟩ := ih p hd.lt (Nat.lt_trans hd.lt hq)
      exact ⟨_, hw.concat hd⟩

/-- **Later states are discovered by later words.** -/
theorem precedes_of_lt (h : b.BreadthFirst n) (hlt : q < r) (hu : b.DiscoveryWord q u)
    (hv : b.DiscoveryWord r v) : Precedes u v := by
  -- by induction on the later state, whose word is that of an earlier state and one symbol more
  induction r using Nat.strongRecOn generalizing q u v with
  | ind r ih =>
    obtain ⟨p, d, v, hp, hd, rfl⟩ := hv.exists_of_pos (Nat.zero_lt_of_lt hlt)
    rcases Nat.eq_zero_or_pos q with rfl | hq
    · rw [hu.eq_nil]
      exact precedes_of_ne_nil (by simp)
    · obtain ⟨p', c, u, hp', hc, rfl⟩ := hu.exists_of_pos hq
      rcases hc.first p d r hd.edge (Nat.le_of_lt hlt) with hbefore | ⟨rfl, hcd⟩
      · exact (ih p hd.lt hbefore hp' hp).concat c d
      · have hne : c ≠ d := by
          rintro rfl
          have := h.functional p' c q r hc.edge hd.edge
          omega
        have hcd : c < d := Std.lt_of_le_of_ne hcd hne
        rw [hp'.unique hp]
        exact precedes_concat_of_lt hcd v

/-- **A state is discovered by its least word.** -/
theorem eq_or_precedes (h : b.BreadthFirst n) (hv : b.DiscoveryWord r v) (hw : b.Leads 0 w r) :
    w = v ∨ Precedes v w := by
  induction w using List.reverseRecOn generalizing r v with
  | nil =>
    obtain rfl := leads_nil.1 hw
    exact .inl hv.eq_nil.symm
  | append_singleton w d ih =>
    obtain ⟨p, hp, hedge⟩ := hw.exists_of_concat
    rcases Nat.eq_zero_or_pos r with rfl | hr
    · rw [hv.eq_nil]
      exact .inr (precedes_of_ne_nil (by simp))
    · obtain ⟨q, c, v, hq, hd, rfl⟩ := hv.exists_of_pos hr
      obtain ⟨u, hu⟩ := h.exists_discoveryWord (h.lt_of_leads hp)
      have hle := ih hu hp
      rcases hd.first p d r hedge (Nat.le_refl r) with hbefore | ⟨rfl, hcd⟩
      · -- an earlier state discovered this one, and its word is less than any that leads to a later one
        have hqw : Precedes v w := by
          have hvu := h.precedes_of_lt hbefore hq hu
          rcases hle with rfl | huw
          · exact hvu
          · exact hvu.trans huw
        exact .inr (hqw.concat c d)
      · obtain rfl := hq.unique hu
        rcases hle with rfl | hvw
        · by_cases hne : d = c
          · exact .inl (by rw [hne])
          · exact .inr (precedes_concat_of_lt (Std.lt_of_le_of_ne hcd (Ne.symm hne)) w)
        · exact .inr (hvw.concat c d)

/-- The least word of a state is the one that discovers it. -/
theorem leastWord_iff (h : b.BreadthFirst n) (hq : q < n) : b.LeastWord q w ↔ b.DiscoveryWord q w := by
  obtain ⟨v, hv⟩ := h.exists_discoveryWord hq
  have hleads : b.Leads b.initial v q := h.initial.symm ▸ hv.leads
  constructor
  · intro hw
    rcases hw.least v hleads with rfl | hwv
    · exact hv
    · rcases h.eq_or_precedes hv (h.initial ▸ hw.leads) with rfl | hvw
      · exact hv
      · exact absurd hvw hwv.asymm
  · intro hw
    obtain rfl := hw.unique hv
    exact ⟨hleads, fun u hu => h.eq_or_precedes hv (h.initial ▸ hu)⟩

/-- **States are in the order of their least words.** -/
theorem lt_iff_precedes (h : b.BreadthFirst n) (hu : b.LeastWord q u) (hv : b.LeastWord r v) :
    q < r ↔ Precedes u v := by
  have hu := (h.leastWord_iff (h.lt_of_leads (h.initial ▸ hu.leads))).1 hu
  have hv := (h.leastWord_iff (h.lt_of_leads (h.initial ▸ hv.leads))).1 hv
  refine ⟨fun hlt => h.precedes_of_lt hlt hu hv, fun huv => ?_⟩
  rcases Nat.lt_trichotomy q r with hlt | rfl | hlt
  · exact hlt
  · obtain rfl := hu.unique hv
    exact absurd huv huv.asymm
  · exact absurd huv (h.precedes_of_lt hlt hv hu).asymm

end BreadthFirst

/-- A finished construction is numbered breadth first. -/
theorem breadthFirst_of_progress {a : Automaton} {k : Construction} {found : List StateSet}
    (h : k.Numbered)
    (P : Construction.Progress a k found found.length (Construction.Processed a found found.length)) :
    k.result.BreadthFirst found.length := by
  have hlength := P.length_names
  refine ⟨P.initial, (List.getElem?_eq_some_iff.1 P.first).1, fun q label r he => ?_,
    fun q c r t hr ht => ?_, fun r hr hlt => ?_⟩
  · exact hlength ▸ h.targets q label r he
  · obtain ⟨s, hs, hr⟩ := hr
    obtain ⟨s', hs', ht⟩ := ht
    obtain rfl := Option.some.inj (hs.symm.trans hs')
    obtain ⟨d, u, p, -, -, -, rfl⟩ := (P.edges q (some c) s).1 hs
    rw [StateSet.mem_singleton] at hr ht
    rw [hr, ht]
  · exact h.discovered r hr (hlength.symm ▸ hlt)

/-- **The states of a determinized automaton are numbered breadth first**: each has a least word, and the
order of the states is that of their least words. -/
theorem lt_iff_leastWord_determinize {a : Automaton} {limit : Nat} {d : Determinized}
    (hn : a.isDeterministic = false) (h : a.determinize limit = .ok d) :
    (∀ q, d.automaton.isDeclared q = true → ∃ w, d.automaton.LeastWord q w) ∧
    ∀ q r u v, d.automaton.LeastWord q u → d.automaton.LeastWord r v → (q < r ↔ Precedes u v) := by
  obtain ⟨-, ⟨hd, -⟩ | ⟨-, k, hk, rfl⟩⟩ := determinize_cases h
  · rw [hn] at hd
    cases hd
  · obtain ⟨found, P, -⟩ := Construction.progress_construct hk
    have hb := breadthFirst_of_progress (Construction.numbered_construct hk) P
    refine ⟨fun q hq => ?_, fun q r u v hu hv => hb.lt_iff_precedes hu hv⟩
    have hlt : q < found.length := by
      rwa [isDeclared_iff, P.states, StateSet.mem_below] at hq
    obtain ⟨w, hw⟩ := hb.exists_discoveryWord hlt
    exact ⟨w, (hb.leastWord_iff hlt).2 hw⟩

theorem lt_iff_leastWord_forked : forked.isDeterministic = false ∧ ∃ d, forked.determinize 4 = .ok d ∧
    ∃ u v, d.automaton.LeastWord 2 u ∧ d.automaton.LeastWord 3 v ∧ Precedes u v := by
  have hn : forked.isDeterministic = false := by decide
  have hdeclared : ((forked.determinize 4).toOption.map fun d =>
      (d.automaton.isDeclared 2, d.automaton.isDeclared 3)) = some (true, true) := by
    decide +kernel
  obtain ⟨d, hd, hdeclared⟩ := Option.map_eq_some_iff.1 hdeclared
  have hd : forked.determinize 4 = .ok d := toOption_eq_some.1 hd
  obtain ⟨h₂, h₃⟩ := Prod.mk.inj hdeclared
  obtain ⟨hleast, horder⟩ := lt_iff_leastWord_determinize hn hd
  obtain ⟨u, hu⟩ := hleast 2 h₂
  obtain ⟨v, hv⟩ := hleast 3 h₃
  exact ⟨hn, d, hd, u, v, hu, hv, (horder 2 3 u v hu hv).1 (by decide)⟩

end Automaton

end FiniteAutomata
