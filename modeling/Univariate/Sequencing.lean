/-! # Sequencing of computations that can fail

The two ways in which a sequence of two steps can end, the folds over lists, and agreement of two
computations as far as they return. -/

namespace Univariate

variable {ε α β : Type}

theorem bind_eq_ok_iff {x : Except ε α} {f : α → Except ε β} {b : β} :
    (x >>= f) = .ok b ↔ ∃ a, x = .ok a ∧ f a = .ok b := by
  cases x <;> simp [bind, Except.bind]

theorem bind_eq_error_iff {x : Except ε α} {f : α → Except ε β} {e : ε} :
    (x >>= f) = .error e ↔ x = .error e ∨ ∃ a, x = .ok a ∧ f a = .error e := by
  cases x <;> simp [bind, Except.bind]

theorem eq_error_iff_of_unique {x : Except ε α} {e f : ε} (h : ∀ e', x = .error e' → e' = e) :
    x = .error f ↔ f = e ∧ ¬ ∃ a, x = .ok a := by
  cases x with
  | ok a => simp
  | error e' => simp [h e' rfl, eq_comm]

theorem toOption_bind (x : Except ε α) (f : α → Except ε β) :
    (x >>= f).toOption = x.toOption.bind fun a => (f a).toOption := by
  cases x <;> rfl

@[simp] theorem ok_bind (a : α) (f : α → Except ε β) : ((.ok a : Except ε α) >>= f) = f a := rfl

@[simp] theorem error_bind (e : ε) (f : α → Except ε β) :
    ((.error e : Except ε α) >>= f) = .error e := rfl

/-- A computation ends in a result that satisfies `P` or in a failure that satisfies `Q`. -/
def Ends (P : α → Prop) (Q : ε → Prop) : Except ε α → Prop
  | .ok a => P a
  | .error e => Q e

section Ends

variable {P : α → Prop} {Q : ε → Prop} {x : Except ε α}

theorem ends_iff : Ends P Q x ↔ (∀ a, x = .ok a → P a) ∧ ∀ e, x = .error e → Q e := by
  cases x <;> simp [Ends]

theorem ends_true_iff : Ends P (fun _ => True) x ↔ ∀ a, x = .ok a → P a := by
  cases x <;> simp [Ends]

theorem ends_false_iff : Ends P (fun _ => False) x ↔ ∃ a, x = .ok a ∧ P a := by
  cases x <;> simp [Ends]

theorem ends_ne_iff {e : ε} :
    Ends (fun _ => True) (fun e' => e' ≠ e) x ↔ x ≠ .error e := by
  cases x <;> simp [Ends]

theorem Ends.bind {R : β → Prop} {f : α → Except ε β} (hx : Ends P Q x)
    (hf : ∀ a, P a → Ends R Q (f a)) : Ends R Q (x >>= f) := by
  cases x with
  | ok a => exact hf a hx
  | error e => exact hx

end Ends

/-- What every step keeps up, the fold keeps up. -/
theorem foldlM_ends {P : β → Prop} {Q : ε → Prop} {f : β → α → Except ε β} {l : List α} {b : β}
    (step : ∀ b, ∀ a ∈ l, P b → Ends P Q (f b a)) (hb : P b) : Ends P Q (l.foldlM f b) := by
  induction l generalizing b with
  | nil => exact hb
  | cons a l ih =>
    rw [List.foldlM_cons]
    exact (step b a List.mem_cons_self hb).bind fun c hc =>
      ih (fun b a ha => step b a (List.mem_cons_of_mem _ ha)) hc

theorem exists_of_foldlM_eq_ok {f : β → α → Except ε β} {l : List α} {b c : β}
    (h : l.foldlM f b = .ok c) {a : α} (ha : a ∈ l) : ∃ b c, f b a = .ok c := by
  induction l generalizing b with
  | nil => cases ha
  | cons d l ih =>
    rw [List.foldlM_cons] at h
    obtain ⟨b', hb, h⟩ := bind_eq_ok_iff.1 h
    rcases List.mem_cons.1 ha with rfl | ha
    · exact ⟨b, b', hb⟩
    · exact ih h ha

/-- A fold that fails does so at one of its steps, and the steps before it have returned. -/
theorem foldlM_eq_error {f : β → α → Except ε β} {l : List α} {b : β} {e : ε}
    (h : l.foldlM f b = .error e) : ∃ before a after c,
      l = before ++ a :: after ∧ before.foldlM f b = .ok c ∧ f c a = .error e := by
  induction l generalizing b with
  | nil => cases h
  | cons a l ih =>
    rw [List.foldlM_cons] at h
    rcases bind_eq_error_iff.1 h with h | ⟨c, hc, h⟩
    · exact ⟨[], a, l, b, rfl, rfl, h⟩
    · obtain ⟨before, a', after, d, rfl, hd, he⟩ := ih h
      refine ⟨a :: before, a', after, d, rfl, ?_, he⟩
      rw [List.foldlM_cons, hc, ok_bind, hd]

theorem foldlM_keeps {P : β → Prop} {f : β → α → Except ε β} {l : List α} {b c : β}
    (step : ∀ b c, ∀ a ∈ l, P b → f b a = .ok c → P c) (hb : P b) (h : l.foldlM f b = .ok c) :
    P c :=
  ends_true_iff.1 (foldlM_ends (fun b a ha hb => ends_true_iff.2 fun c => step b c a ha hb) hb) c h

theorem foldlM_total {f : β → α → Except ε β} {l : List α} {b : β}
    (step : ∀ b, ∀ a ∈ l, ∃ c, f b a = .ok c) : ∃ c, l.foldlM f b = .ok c := by
  have hends : Ends (fun _ => True) (fun _ => False) (l.foldlM f b) :=
    foldlM_ends (fun b a ha _ => ends_false_iff.2 ((step b a ha).imp fun _ hc => ⟨hc, trivial⟩))
      trivial
  exact (ends_false_iff.1 hends).imp fun _ hc => hc.1

/-- Where both computations return, they return the same. -/
def Agree (x y : Except ε α) : Prop := ∀ a b, x = .ok a → y = .ok b → a = b

end Univariate
