import BlockCoding.Fault

/-!
# Proofs/Fault — computations that may end in a fault

Whatever may fault is an `Except`.  These lemmas take a sequence of such computations apart
(`bind_eq_ok`), compute with those that are known to go well, and compare a sequence with the one
whose numbers have to fit into their words (`foldlM_ok_or_overflow`).
-/

namespace BlockCoding

variable {ε α β : Type}

@[simp] theorem ok_bind (a : α) (f : α → Except ε β) : (Except.ok a >>= f) = f a := rfl

@[simp] theorem error_bind (e : ε) (f : α → Except ε β) :
    (Except.error e >>= f) = Except.error e := rfl

@[simp] theorem pure_eq_ok (a : α) : (pure a : Except ε α) = .ok a := rfl

/-- **A sequence goes well exactly if both parts do.** -/
theorem bind_eq_ok {x : Except ε α} {f : α → Except ε β} {b : β} :
    (x >>= f) = .ok b ↔ ∃ a, x = .ok a ∧ f a = .ok b := by
  cases x with
  | error e => simp
  | ok a => simp

/-- Mapping is going on with what is given. -/
theorem map_eq_bind (x : Except ε α) (f : α → β) : x.map f = (x >>= fun a => .ok (f a)) := by
  cases x <;> rfl

/-- What a mapped computation gives comes from what it gives itself. -/
theorem map_eq_ok {x : Except ε α} {f : α → β} {b : β} :
    x.map f = .ok b ↔ ∃ a, x = .ok a ∧ f a = b := by
  cases x with
  | error e => simp [Except.map]
  | ok a => simp [Except.map]

/-- **Steps that come to the same or overflow do so in a row**: the first one that overflows ends
the row. -/
theorem foldlM_ok_or_overflow {next next? : α → β → Except Fault α}
    (hstep : ∀ {a b a'}, next a b = .ok a' → next? a b = .ok a' ∨ next? a b = .error .overflow)
    {bs : List β} {a a' : α} (h : bs.foldlM next a = .ok a') :
    bs.foldlM next? a = .ok a' ∨ bs.foldlM next? a = .error .overflow := by
  induction bs generalizing a with
  | nil => exact .inl h
  | cons b bs ih =>
    rw [List.foldlM_cons] at h ⊢
    obtain ⟨later, hlater, hrest⟩ := bind_eq_ok.mp h
    rcases hstep hlater with hfits | hfits
    · rw [hfits, ok_bind]
      exact ih hrest
    · rw [hfits, error_bind]
      exact .inr rfl

end BlockCoding
