import FiniteAutomata.Pattern.Expression

/-!
# Matching

A set of places of a text is a list with a truth value for each place, in order. Matching an
expression maps the places where a match may start to the places where one may end. Main statement:
this keeps the number of places (`Expression.length_reach`).
-/
namespace FiniteAutomata.Pattern

/-! ### Sets of places -/

/-- The places in one of two sets. -/
def joinPlaces (m n : List Bool) : List Bool := List.zipWith (· || ·) m n

/-- The places after a symbol of a kind that follows one of some places. -/
def afterSymbol (text : List Char) (kind : Char → Bool) (m : List Bool) : List Bool :=
  false :: List.zipWith (fun b c => b && kind c) m text

/-- The places that a step leads to when it is done `n` times. -/
def stepTimes (step : List Bool → List Bool) : Nat → List Bool → List Bool
  | 0, m => m
  | n + 1, m =>
    let next := step m
    if next = m then m else stepTimes step n next

/-- The places that a step leads to when it is done at most `n` times. -/
def stepUpTo (step : List Bool → List Bool) : Nat → List Bool → List Bool
  | 0, m => m
  | n + 1, m =>
    let next := joinPlaces m (step m)
    if next = m then m else stepUpTo step n next

theorem length_joinPlaces {m n : List Bool} {k : Nat} (hm : m.length = k) (hn : n.length = k) :
    (joinPlaces m n).length = k := by simp [joinPlaces, hm, hn]

theorem length_afterSymbol {text : List Char} (kind : Char → Bool) {m : List Bool}
    (h : m.length = text.length + 1) : (afterSymbol text kind m).length = text.length + 1 := by
  simp [afterSymbol, h]

theorem length_stepTimes {step : List Bool → List Bool} {k : Nat}
    (h : ∀ m, m.length = k → (step m).length = k) (n : Nat) {m : List Bool} (hm : m.length = k) :
    (stepTimes step n m).length = k := by
  induction n generalizing m with
  | zero => exact hm
  | succ n ih =>
    unfold stepTimes
    by_cases e : step m = m
    · simp [e, hm]
    · simpa [e] using ih (h m hm)

theorem length_stepUpTo {step : List Bool → List Bool} {k : Nat}
    (h : ∀ m, m.length = k → (step m).length = k) (n : Nat) {m : List Bool} (hm : m.length = k) :
    (stepUpTo step n m).length = k := by
  induction n generalizing m with
  | zero => exact hm
  | succ n ih =>
    unfold stepUpTo
    by_cases e : joinPlaces m (step m) = m
    · simp [e, hm]
    · simpa [e] using ih (length_joinPlaces hm (h m hm))

namespace Expression

/-! ### Expressions -/

mutual

/--
The places of a text where a match may end that starts at one of some places. Repetitions without
bound are done as often as the text is long: the shortest of the matches between two places repeats
nothing that is empty.
-/
def reach (text : List Char) : Expression → List Bool → List Bool
  | .empty, m => m
  | .literal cs, m => cs.foldl (fun m c => afterSymbol text (· == c) m) m
  | .oneOf s _, m => afterSymbol text s.contains m
  | .look l, m => List.zipWith (fun b p => b && l.holds p) m (places text)
  | .sequence es, m => reachInSequence text es m
  | .either es, m => reachByEither text es m
  | .captured _ e, m => e.reach text m
  | .repeated e least most _, m =>
    stepUpTo (e.reach text) (match most with | none => text.length | some n => n - least)
      (stepTimes (e.reach text) least m)

/-- The places where a match of a sequence may end. -/
def reachInSequence (text : List Char) : List Expression → List Bool → List Bool
  | [], m => m
  | e :: es, m => reachInSequence text es (e.reach text m)

/-- The places where a match of one of some expressions may end. -/
def reachByEither (text : List Char) : List Expression → List Bool → List Bool
  | [], m => m.map fun _ => false
  | e :: es, m => joinPlaces (e.reach text m) (reachByEither text es m)

end

theorem length_foldl_afterSymbol {text : List Char} (cs : List Char) {m : List Bool}
    (h : m.length = text.length + 1) :
    (cs.foldl (fun m c => afterSymbol text (· == c) m) m).length = text.length + 1 := by
  induction cs generalizing m with
  | nil => exact h
  | cons c cs ih => exact ih (length_afterSymbol _ h)

mutual

/-- Matching keeps the number of places. -/
theorem length_reach (text : List Char) (e : Expression) {m : List Bool}
    (h : m.length = text.length + 1) : (e.reach text m).length = text.length + 1 := by
  match e with
  | .empty => simpa [reach] using h
  | .literal cs => simpa [reach] using length_foldl_afterSymbol cs h
  | .oneOf s _ => simpa [reach] using length_afterSymbol s.contains h
  | .look l => simp [reach, h, places, length_placesAfter]
  | .sequence es => simpa [reach] using length_reachInSequence text es h
  | .either es => simpa [reach] using length_reachByEither text es h
  | .captured _ e => simpa [reach] using length_reach text e h
  | .repeated e least most _ =>
    simp only [reach]
    exact length_stepUpTo (fun _ hm => length_reach text e hm) _
      (length_stepTimes (fun _ hm => length_reach text e hm) _ h)

theorem length_reachInSequence (text : List Char) (es : List Expression) {m : List Bool}
    (h : m.length = text.length + 1) :
    (reachInSequence text es m).length = text.length + 1 := by
  match es with
  | [] => simpa [reachInSequence] using h
  | e :: es =>
    rw [reachInSequence]
    exact length_reachInSequence text es (length_reach text e h)

theorem length_reachByEither (text : List Char) (es : List Expression) {m : List Bool}
    (h : m.length = text.length + 1) : (reachByEither text es m).length = text.length + 1 := by
  match es with
  | [] => simpa [reachByEither] using h
  | e :: es =>
    rw [reachByEither]
    exact length_joinPlaces (length_reach text e h) (length_reachByEither text es h)

end

/-- Whether some part of a text matches the expression. -/
def isFoundIn (e : Expression) (text : List Char) : Bool :=
  (e.reach text (List.replicate (text.length + 1) true)).any id

end Expression

end FiniteAutomata.Pattern
