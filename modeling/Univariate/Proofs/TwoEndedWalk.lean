import Univariate.SparsePoly.Basic

/-! # Walking from both ends

A walk asks for terms at either end of a cursor, in any order.  What it has taken at the front, what
remains and what it has taken at the back are always the terms of the cursor that it began with.  So
no term is taken twice and none is left out, and the two ends have met exactly when as many terms
are taken as there were. -/

namespace Univariate

inductive Side
  | front
  | back
  deriving DecidableEq, Repr

namespace Cursor

variable {C : Type}

def ask (c : Cursor C) : Side → Option (Term C) × Cursor C
  | .front => c.next
  | .back => c.nextBack

/-- What a walk was answered, and where, in the order of its calls. -/
abbrev Answers (C : Type) := List (Side × Option (Term C))

def walk (c : Cursor C) : List Side → Answers C × Cursor C
  | [] => ([], c)
  | side :: calls =>
    let (answers, last) := (c.ask side).2.walk calls
    ((side, (c.ask side).1) :: answers, last)

/-- The terms that were taken at one end, the first of them first. -/
def takenAt (side : Side) (answers : Answers C) : List (Term C) :=
  (answers.filter (·.1 = side)).filterMap (·.2)

variable {c : Cursor C} {calls : List Side}

@[simp] theorem takenAt_nil (side : Side) : takenAt side ([] : Answers C) = [] := rfl

private theorem takenAt_cons_same (side : Side) (term : Option (Term C)) (answers : Answers C) :
    takenAt side ((side, term) :: answers) = term.toList ++ takenAt side answers := by
  cases term <;> simp [takenAt]

private theorem takenAt_cons_other {side other : Side} (h : other ≠ side) (term : Option (Term C))
    (answers : Answers C) : takenAt side ((other, term) :: answers) = takenAt side answers := by
  simp [takenAt, h]

theorem next_split (c : Cursor C) : c.next.1.toList ++ c.next.2.remaining = c.remaining := by
  obtain ⟨l⟩ := c
  cases l <;> rfl

theorem nextBack_split (c : Cursor C) :
    c.nextBack.2.remaining ++ c.nextBack.1.toList = c.remaining := by
  obtain ⟨l⟩ := c
  cases hl : l.getLast? with
  | none =>
    cases List.getLast?_eq_none_iff.1 hl
    rfl
  | some t =>
    obtain ⟨front, rfl⟩ := List.getLast?_eq_some_iff.1 hl
    simp [nextBack]

theorem next_eq_none_iff : c.next.1 = none ↔ c.remaining = [] := List.head?_eq_none_iff

theorem nextBack_eq_none_iff : c.nextBack.1 = none ↔ c.remaining = [] :=
  List.getLast?_eq_none_iff

/-- What a walk has taken at the two ends is missing at these ends, and nothing else is. -/
theorem walk_split (c : Cursor C) (calls : List Side) :
    takenAt .front (c.walk calls).1 ++ (c.walk calls).2.remaining ++
      (takenAt .back (c.walk calls).1).reverse = c.remaining := by
  induction calls generalizing c with
  | nil => simp [walk]
  | cons side calls ih =>
    cases side with
    | front =>
      rw [← next_split c, ← ih c.next.2]
      simp [walk, ask, takenAt_cons_same, takenAt_cons_other]
    | back =>
      rw [← nextBack_split c, ← ih c.nextBack.2]
      cases hterm : c.nextBack.1 <;>
        simp [walk, ask, takenAt_cons_same, takenAt_cons_other, hterm]

theorem walk_of_remaining_eq_nil (h : c.remaining = []) (calls : List Side) :
    ∀ answer ∈ (c.walk calls).1, answer.2 = none := by
  obtain ⟨l⟩ := c
  cases h
  induction calls with
  | nil => exact fun answer hanswer => absurd hanswer List.not_mem_nil
  | cons side calls ih => cases side <;> exact List.forall_mem_cons.2 ⟨rfl, ih⟩

/-- After any calls the front has given the first terms in ascending order and the back the last
ones in descending order, and the terms between them remain.  Both ends are exhausted when all terms
are taken, and stay so. -/
theorem walk_takes_each_term_once (p : SparsePoly C) (calls : List Side) :
    let answers := (p.cursor.walk calls).1
    let c := (p.cursor.walk calls).2
    let f := (takenAt .front answers).length
    let b := (takenAt .back answers).length
    let m := p.terms.length
    f + b ≤ m ∧ takenAt .front answers = p.terms.take f ∧
      takenAt .back answers = p.terms.reverse.take b ∧
      c.remaining = (p.terms.drop f).take (m - f - b) ∧
      c.size = m - f - b ∧ c.sizeBounds = (m - f - b, m - f - b) ∧
      (c.next.1 = none ↔ f + b = m) ∧ (c.nextBack.1 = none ↔ f + b = m) ∧
      (f + b = m → ∀ more, ∀ answer ∈ (c.walk more).1, answer.2 = none) := by
  intro answers c f b m
  have hsplit : takenAt .front answers ++ c.remaining ++ (takenAt .back answers).reverse =
      p.terms := walk_split p.cursor calls
  have hlength : f + c.remaining.length + b = m := by
    simpa [f, b, m, Nat.add_assoc] using congrArg List.length hsplit
  have hempty : c.remaining = [] ↔ f + b = m := by
    rw [← List.length_eq_zero_iff]
    omega
  have hsize : c.size = m - f - b := by
    rw [size]
    omega
  refine ⟨by omega, ?_, ?_, ?_, hsize, ?_, ?_, ?_, ?_⟩
  · rw [← hsplit, List.append_assoc, List.take_left]
  · rw [← hsplit]
    simp [b]
  · rw [← hsplit, List.append_assoc, List.drop_left, ← hsize, size, List.take_left]
  · rw [sizeBounds, hsize]
  · rw [next_eq_none_iff, hempty]
  · rw [nextBack_eq_none_iff, hempty]
  · exact fun hall more => walk_of_remaining_eq_nil (hempty.2 hall) more

/-- The ends meet at the middle one of three terms. -/
example (r s t : Term C) : (SparsePoly.cursor ⟨[r, s, t]⟩).walk [.front, .back, .back, .front] =
    ([(.front, some r), (.back, some t), (.back, some s), (.front, none)], ⟨[]⟩) := rfl

end Cursor

end Univariate
