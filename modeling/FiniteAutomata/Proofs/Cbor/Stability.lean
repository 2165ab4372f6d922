import FiniteAutomata.Proofs.Cbor.Reading

/-!
# What a reader looks at

A reader only looks at the bytes that it takes: whatever it reads from some bytes, it reads from them with
more bytes behind as well (`Stable`). Some readers look ahead, at a stop or at the head that may follow a tag,
but an item is not read before its head is there. So of a written item that a stable reader reads back no
strict prefix is an item (`Stable.eq_none_of_prefix`).
-/
namespace FiniteAutomata

variable {α β : Type}

/-- The first reading is no success, or the second one is the same success with more bytes left. -/
def Extends (more : List UInt8) (x y : Option (α × List UInt8)) : Prop :=
  ∀ v rest, x = some (v, rest) → y = some (v, rest ++ more)

/-- What is read does not change when more bytes follow. -/
def Stable (read : Reader α) : Prop := ∀ bs more, Extends more (read bs) (read (bs ++ more))

/-- **No strict prefix of a written item is read.** -/
theorem Stable.eq_none_of_prefix {read : Reader α} {bytes front : List UInt8} {v : α} (h : Stable read)
    (hread : Reads read bytes v) (hfront : front <+: bytes) (hne : front ≠ bytes) : read front = none := by
  obtain ⟨tail, rfl⟩ := hfront
  cases hr : read front with
  | none => rfl
  | some result =>
    -- what is left of the prefix would be left of the whole, of which nothing is left
    have hwhole := h front tail result.1 result.2 hr
    have hall := hread []
    rw [List.append_nil, hwhole] at hall
    have hleft : result.2 ++ tail = [] := congrArg Prod.snd (Option.some.inj hall)
    have htail : tail = [] := (List.append_eq_nil_iff.1 hleft).2
    exact absurd (by rw [htail, List.append_nil]) hne

/-! ## Steps of a reading -/

section Steps
variable {more rest : List UInt8} {x y : Option (α × List UInt8)}

theorem extends_none (more : List UInt8) (y : Option (α × List UInt8)) : Extends more none y := nofun

theorem extends_some (v : α) (rest more : List UInt8) :
    Extends more (some (v, rest)) (some (v, rest ++ more)) := by
  intro w r h
  cases h
  rfl

theorem Extends.bind {f g : α × List UInt8 → Option (β × List UInt8)} (h : Extends more x y)
    (hf : ∀ v rest, x = some (v, rest) → Extends more (f (v, rest)) (g (v, rest ++ more))) :
    Extends more (x >>= f) (y >>= g) := by
  cases x with
  | none => exact extends_none more _
  | some p =>
    rw [h p.1 p.2 rfl]
    exact hf p.1 p.2 rfl

theorem Extends.map (h : Extends more x y) (f : α → β) :
    Extends more (x.map fun (v, rest) => (f v, rest)) (y.map fun (v, rest) => (f v, rest)) := by
  cases x with
  | none => exact extends_none more _
  | some p =>
    rw [h p.1 p.2 rfl]
    exact extends_some (f p.1) p.2 more

/-- A value that is made of what was read is the same with more bytes behind. -/
theorem extends_bind_value {γ : Type} (o : Option γ) {f g : γ → Option (α × List UInt8)}
    (h : ∀ v, Extends more (f v) (g v)) : Extends more (o >>= f) (o >>= g) := by
  cases o with
  | none => exact extends_none more _
  | some v => exact h v

theorem extends_ite (c : Prop) [Decidable c] (h : Extends more x y) :
    Extends more (if c then x else none) (if c then y else none) := by
  split
  · exact h
  · exact extends_none more _

end Steps

theorem Stable.map {read : Reader α} (h : Stable read) (f : α → β) :
    Stable fun bs => (read bs).map fun (v, rest) => (f v, rest) :=
  fun bs more => (h bs more).map f

theorem stable_takeBytes? (n : Nat) : Stable (takeBytes? n) := by
  intro bs more front rest h
  obtain ⟨rfl, rfl⟩ := eq_of_takeBytes? h
  rw [List.append_assoc]
  exact takeBytes?_append front (rest ++ more)

namespace Cbor

/-! ## Heads -/

theorem stable_readArgument (info : Nat) : Stable (readArgument info) := by
  intro bs more
  unfold readArgument
  split
  · exact extends_some _ bs more
  · split
    · exact extends_some _ bs more
    · refine extends_bind_value _ fun width => ?_
      exact (stable_takeBytes? width bs more).bind fun front rest _ => extends_some _ rest more

theorem stable_readHead : Stable readHead := by
  intro bs more
  cases bs with
  | nil => exact extends_none more _
  | cons b bs =>
    refine (stable_readArgument _ bs more).bind fun argument rest _ => ?_
    exact extends_bind_value _ fun head => extends_some head rest more

theorem readHeadPast_eq (skipped : Nat → Bool) (bs : List UInt8) :
    readHeadPast skipped bs = (do
      let (head, rest) ← readHead bs
      match head with
      | .tag n => if skipped n then readHeadPast skipped rest else some (.tag n, rest)
      | head => some (head, rest)) := by
  rw [readHeadPast]
  split
  · rename_i hhead
    rw [hhead]
    rfl
  · rename_i hhead
    cases hr : readHead bs with
    | none => rfl
    | some p =>
      obtain ⟨head, rest⟩ := p
      cases head <;> first | rfl | exact absurd hr (hhead _ _)

theorem stable_readHeadPast (skipped : Nat → Bool) : Stable (readHeadPast skipped) := by
  intro bs
  induction hn : bs.length using Nat.strongRecOn generalizing bs with
  | ind n ih =>
    intro more
    rw [readHeadPast_eq, readHeadPast_eq]
    refine (stable_readHead bs more).bind fun head rest hhead => ?_
    cases head with
    | tag n =>
      by_cases hskip : skipped n
      · simp only [hskip, if_true]
        exact ih rest.length (hn ▸ length_readHead hhead) rest rfl more
      · simp only [hskip]
        exact extends_some _ rest more
    | _ => exact extends_some _ rest more

theorem stable_readUntagged : Stable readUntagged := stable_readHeadPast _

/-! ## Strings -/

theorem readSeries_eq (length? : Head → Option (Option Nat)) (depth : Nat) (bs : List UInt8) :
    readSeries length? depth bs = (do
      let (head, rest) ← readHead bs
      if head = .stop then
        match depth with
        | 0 => some ([], rest)
        | depth + 1 => readSeries length? depth rest
      else do
        match ← length? head with
        | none => readSeries length? (depth + 1) rest
        | some n =>
          let (chunk, rest) ← takeBytes? n rest
          (readSeries length? depth rest).map fun (chunks, rest) => (chunk :: chunks, rest)) := by
  rw [readSeries]
  split
  · rename_i hhead
    rw [hhead]
    rfl
  · rename_i hhead
    rw [hhead]
    rfl
  · rename_i head rest hstop hhead
    have hne : head ≠ .stop := hstop
    rw [hhead]
    simp only [Option.bind_eq_bind, Option.bind_some, if_neg hne]
    cases length? head with
    | none => rfl
    | some length =>
      cases length with
      | none => rfl
      | some n =>
        simp only [Option.bind_some]
        split
        · rename_i htake
          rw [htake, Option.bind_none]
        · rename_i htake
          rw [htake, Option.bind_some]

theorem stable_readSeries (length? : Head → Option (Option Nat)) (depth : Nat) :
    Stable (readSeries length? depth) := by
  intro bs
  induction hn : bs.length using Nat.strongRecOn generalizing depth bs with
  | ind n ih =>
    intro more
    rw [readSeries_eq, readSeries_eq]
    refine (stable_readHead bs more).bind fun head rest hhead => ?_
    have hlt : rest.length < n := hn ▸ length_readHead hhead
    by_cases hstop : head = .stop
    · simp only [if_pos hstop]
      cases depth with
      | zero => exact extends_some _ rest more
      | succ depth => exact ih _ hlt depth rest rfl more
    · simp only [if_neg hstop]
      refine extends_bind_value _ fun length => ?_
      cases length with
      | none => exact ih _ hlt (depth + 1) rest rfl more
      | some m =>
        refine (stable_takeBytes? m rest more).bind fun chunk left htake => ?_
        have hle : left.length ≤ rest.length := by
          rw [(eq_of_takeBytes? htake).1, List.length_append]
          exact Nat.le_add_left _ _
        exact (ih _ (Nat.lt_of_le_of_lt hle hlt) depth left rfl more).map (chunk :: ·)

theorem stable_readChunks (length? : Head → Option (Option Nat)) (length : Option Nat) :
    Stable (readChunks length? length) := by
  cases length with
  | none => exact stable_readSeries length? 0
  | some n => exact (stable_takeBytes? n).map fun chunk => [chunk]

theorem stable_readByteContent (length : Option Nat) : Stable (readByteContent length) :=
  (stable_readChunks Head.bytesLength? length).map List.flatten

theorem stable_readTextContent (length : Option Nat) : Stable (readTextContent length) := by
  intro bs more
  refine (stable_readChunks Head.textLength? length bs more).bind fun chunks rest _ => ?_
  exact extends_bind_value _ fun texts => extends_some _ rest more

theorem stable_readText : Stable readText := by
  intro bs more
  refine (stable_readUntagged bs more).bind fun head rest _ => ?_
  cases head with
  | text length => exact stable_readTextContent length rest more
  | _ => exact extends_none more _

theorem stable_readChar : Stable readChar := by
  intro bs more
  refine (stable_readUntagged bs more).bind fun head rest _ => ?_
  cases head with
  | text length =>
    cases length with
    | none => exact extends_none more _
    | some n =>
      refine extends_ite _ ((stable_takeBytes? n rest more).bind fun content rest _ => ?_)
      refine extends_bind_value _ fun text => ?_
      split
      · exact extends_some _ rest more
      · exact extends_none more _
  | _ => exact extends_none more _

theorem stable_readKeyContent (head : Head) : Stable (readKeyContent head) := by
  intro bs more
  unfold readKeyContent
  split
  · rename_i n
    refine extends_ite _ ((stable_takeBytes? n bs more).bind fun content rest _ => ?_)
    exact extends_bind_value _ fun text => extends_some _ rest more
  · rename_i n
    exact extends_ite _ ((stable_takeBytes? n bs more).map ofUtf8?)
  · exact extends_none more _

theorem stable_readKey : Stable readKey := by
  intro bs more
  exact (stable_readUntagged bs more).bind fun head rest _ => stable_readKeyContent head rest more

/-! ## Numbers -/

theorem stable_readUnsigned : Stable readUnsigned := by
  intro bs more
  refine (stable_readHeadPast _ bs more).bind fun head rest _ => ?_
  dsimp only
  split
  · exact extends_some _ rest more
  · refine (stable_readHead rest more).bind fun head rest _ => ?_
    cases head with
    | bytes length =>
      refine (stable_readByteContent length rest more).bind fun content rest _ => ?_
      exact extends_ite _ (extends_some _ rest more)
    | _ => exact extends_none more _
  · exact extends_none more _

theorem stable_readByte : Stable readByte := by
  intro bs more
  refine (stable_readUnsigned bs more).bind fun n rest _ => ?_
  exact extends_ite _ (extends_some _ rest more)

theorem readOptional_eq (read : Reader α) (bs : List UInt8) :
    readOptional read bs = (do
      let (head, rest) ← readHead bs
      if head = .simple 22 ∨ head = .simple 23 then some (none, rest)
      else (read bs).map fun (v, rest) => (some v, rest)) := by
  unfold readOptional
  cases readHead bs with
  | none => rfl
  | some p =>
    obtain ⟨head, rest⟩ := p
    simp only [Option.bind_eq_bind, Option.bind_some]
    split
    · simp_all
    · simp_all
    · rename_i hnull hundefined
      rw [if_neg]
      rintro (rfl | rfl)
      · exact hnull rest rfl
      · exact hundefined rest rfl

theorem stable_readOptional {read : Reader α} (h : Stable read) : Stable (readOptional read) := by
  intro bs more
  rw [readOptional_eq, readOptional_eq]
  refine (stable_readHead bs more).bind fun head rest _ => ?_
  dsimp only
  split
  · exact extends_some none rest more
  · exact (h bs more).map some

/-! ## Items in a row -/

theorem stable_readCount {read : Reader α} (h : Stable read) (n : Nat) : Stable (readCount read n) := by
  induction n with
  | zero =>
    intro bs more
    exact extends_some _ bs more
  | succ n ih =>
    intro bs more
    refine (h bs more).bind fun v rest _ => ?_
    exact (ih rest more).bind fun vs rest _ => extends_some _ rest more

theorem argument_eq_none_of_stop {major info : Nat} {argument : Option Nat}
    (h : Head.ofParts? major info argument = some .stop) : argument = none := by
  unfold Head.ofParts? at h
  split at h <;> grind

theorem info_eq_of_argument_eq_none {info : Nat} {bs rest : List UInt8}
    (h : readArgument info bs = some (none, rest)) : info = 31 := by
  unfold readArgument at h
  split at h
  · cases h
  · split at h
    · assumption
    · simp only [Option.bind_eq_bind, Option.bind_eq_some_iff] at h
      obtain ⟨width, -, p, -, h⟩ := h
      cases h

/-- A stop is told by its first byte. -/
theorem exists_stop_of_append {bs more rest : List UInt8} (hne : bs ≠ [])
    (h : readHead (bs ++ more) = some (.stop, rest)) : ∃ front, readHead bs = some (.stop, front) := by
  cases bs with
  | nil => exact absurd rfl hne
  | cons b bs =>
    simp only [List.cons_append, readHead, Option.bind_eq_bind, Option.bind_eq_some_iff] at h ⊢
    obtain ⟨⟨argument, r⟩, hargument, head, hhead, hresult⟩ := h
    cases hresult
    obtain rfl := argument_eq_none_of_stop hhead
    have hinfo := info_eq_of_argument_eq_none hargument
    rw [hinfo] at hhead ⊢
    exact ⟨bs, (none, bs), rfl, .stop, hhead, rfl⟩

theorem readUntilStop_of_stop {read : Reader α} {bs rest : List UInt8}
    (h : readHead bs = some (.stop, rest)) : readUntilStop read bs = some ([], rest) := by
  rw [readUntilStop, h]

theorem readUntilStop_of_not_stop {read : Reader α} {bs : List UInt8}
    (h : ∀ rest, readHead bs ≠ some (.stop, rest)) :
    readUntilStop read bs = (do
      let (v, rest) ← read bs
      if rest.length < bs.length then
        (readUntilStop read rest).map fun (vs, rest) => (v :: vs, rest)
      else none) := by
  rw [readUntilStop]
  split
  · rename_i hstop
    exact absurd hstop (h _)
  · cases read bs with
    | none => rfl
    | some p => rfl

theorem stable_readUntilStop {read : Reader α} (h : Stable read) : Stable (readUntilStop read) := by
  intro bs
  induction hn : bs.length using Nat.strongRecOn generalizing bs with
  | ind n ih =>
    intro more
    by_cases hstop : ∃ rest, readHead bs = some (.stop, rest)
    · obtain ⟨rest, hstop⟩ := hstop
      rw [readUntilStop_of_stop hstop, readUntilStop_of_stop (stable_readHead bs more _ _ hstop)]
      exact extends_some [] rest more
    · have hnot : ∀ rest, readHead bs ≠ some (.stop, rest) := fun rest e => hstop ⟨rest, e⟩
      rw [readUntilStop_of_not_stop hnot]
      by_cases hbs : bs = []
      · -- no item is taken from nothing
        subst hbs
        cases read [] <;> exact extends_none more _
      · have hnot' : ∀ rest, readHead (bs ++ more) ≠ some (.stop, rest) :=
          fun rest e => hstop (exists_stop_of_append hbs e)
        rw [readUntilStop_of_not_stop hnot']
        refine (h bs more).bind fun v rest _ => ?_
        have hlen : (rest ++ more).length < (bs ++ more).length ↔ rest.length < bs.length := by
          simp only [List.length_append, Nat.add_lt_add_iff_right]
        simp only [hlen]
        split
        · rename_i hlt
          exact (ih rest.length (hn ▸ hlt) rest rfl more).map (v :: ·)
        · exact extends_none more _

theorem stable_readItems {read : Reader α} (h : Stable read) (length : Option Nat) :
    Stable (readItems read length) := by
  cases length with
  | none => exact stable_readUntilStop h
  | some n => exact stable_readCount h n

theorem stable_readArray {read : Reader α} (h : Stable read) (ofByte? : UInt8 → Option α) :
    Stable (readArray read ofByte?) := by
  intro bs more
  refine (stable_readUntagged bs more).bind fun head rest _ => ?_
  cases head with
  | array length => exact stable_readItems h length rest more
  | bytes length =>
    refine (stable_readByteContent length rest more).bind fun content rest _ => ?_
    exact extends_bind_value _ fun vs => extends_some vs rest more
  | _ => exact extends_none more _

theorem stable_readTuple {read : Reader α} (h : Stable read) (ofByte? : UInt8 → Option α) (n : Nat) :
    Stable (readTuple read ofByte? n) := by
  intro bs more
  refine (stable_readUntagged bs more).bind fun head rest _ => ?_
  cases head with
  | array length =>
    cases length with
    | none => exact stable_readCount h n rest more
    | some m =>
      exact extends_ite _ (stable_readCount h n rest more)
  | bytes length =>
    refine (stable_readByteContent length rest more).bind fun content rest _ => ?_
    refine extends_bind_value _ fun front => ?_
    exact extends_bind_value _ fun vs => extends_some vs rest more
  | _ => exact extends_none more _

theorem stable_readPair {readKey : Reader α} {readValue : α → Reader β} (hk : Stable readKey)
    (hv : ∀ k, Stable (readValue k)) : Stable (readPair readKey readValue) := by
  intro bs more
  refine (hk bs more).bind fun k rest _ => ?_
  exact (hv k rest more).bind fun v rest _ => extends_some (k, v) rest more

theorem stable_readMap {readKey : Reader α} {readValue : α → Reader β} (hk : Stable readKey)
    (hv : ∀ k, Stable (readValue k)) : Stable (readMap readKey readValue) := by
  intro bs more
  refine (stable_readUntagged bs more).bind fun head rest _ => ?_
  cases head with
  | map length => exact stable_readItems (stable_readPair hk hv) length rest more
  | _ => exact extends_none more _

/-! ## Records -/

theorem stable_skipNumber (tag : Nat) : Stable (skipNumber tag) := by
  intro bs more
  refine (stable_readHead bs more).bind fun head rest _ => ?_
  cases head with
  | bytes length =>
    refine (stable_readByteContent length rest more).bind fun content rest _ => ?_
    exact extends_ite _ (extends_some () rest more)
  | _ => exact extends_none more _

/-- Whether a number follows is told by the next head. -/
theorem numberFollows_append {tag : Nat} {bs : List UInt8} {p : Head × List UInt8} (h : readHead bs = some p)
    (more : List UInt8) : numberFollows tag (bs ++ more) = numberFollows tag bs := by
  obtain ⟨head, rest⟩ := p
  rw [numberFollows, numberFollows, h, stable_readHead bs more head rest h]
  cases head with
  | bytes length => cases length <;> rfl
  | _ => rfl

theorem numberFollows_eq_false {bs : List UInt8} (h : readHead bs = none) (tag : Nat) :
    numberFollows tag bs = false := by
  simp [numberFollows, h]

theorem stable_skipContent (head : Head) : Stable (skipContent head) := by
  intro bs more
  cases head with
  | unsigned n => exact extends_some () bs more
  | negative n => exact extends_some () bs more
  | float => exact extends_some () bs more
  | simple n =>
    unfold skipContent
    exact extends_ite _ (extends_some () bs more)
  | bytes length => exact (stable_readByteContent length bs more).map fun _ => ()
  | text length => exact (stable_readTextContent length bs more).map fun _ => ()
  | tag n =>
    unfold skipContent
    dsimp only
    cases hhead : readHead bs with
    | none =>
      rw [numberFollows_eq_false hhead]
      exact extends_none more _
    | some p =>
      rw [numberFollows_append hhead]
      split
      · exact stable_skipNumber n bs more
      · exact extends_none more _
  | array length => exact extends_none more _
  | map length => exact extends_none more _
  | stop => exact extends_none more _

theorem skipItem_eq_none {bs : List UInt8} (h : readHead bs = none) (levels : Nat) :
    skipItem levels bs = none := by
  cases levels <;> simp [skipItem, h]

theorem stable_skipItem (levels : Nat) : Stable (skipItem levels) := by
  induction levels with
  | zero =>
    intro bs more
    exact (stable_readHead bs more).bind fun head rest _ => stable_skipContent head rest more
  | succ levels ih =>
    intro bs more
    refine (stable_readHead bs more).bind fun head rest _ => ?_
    cases head with
    | tag n =>
      dsimp only
      cases hhead : readHead rest with
      | none =>
        rw [numberFollows_eq_false hhead, skipItem_eq_none hhead]
        exact extends_none more _
      | some p =>
        rw [numberFollows_append hhead]
        split
        · exact stable_skipNumber n rest more
        · exact ih rest more
    | array length => exact (stable_readItems ih length rest more).map fun _ => ()
    | map length =>
      exact (stable_readItems (stable_readPair ih fun _ => ih) length rest more).map fun _ => ()
    | _ => exact stable_skipContent _ rest more

section Record
variable {κ : Type} {value : κ → Type} {key? : String → Option κ} {read : (k : κ) → Reader (value k)}

theorem stable_readField (h : ∀ k, Stable (read k)) (levels : Nat) (name : Option String) :
    Stable (readField key? read levels name) := by
  intro bs more
  unfold readField
  split
  · rename_i k _
    exact (h k bs more).map fun v => some (⟨k, v⟩ : (k : κ) × value k)
  · exact (stable_skipItem levels bs more).map fun _ => none

theorem stable_readRecord (h : ∀ k, Stable (read k)) (levels : Nat) :
    Stable (readRecord key? read levels) := by
  intro bs more
  refine (stable_readMap stable_readKey (stable_readField h levels) bs more).bind fun entries rest _ => ?_
  exact extends_some _ rest more

end Record

end Cbor

end FiniteAutomata
