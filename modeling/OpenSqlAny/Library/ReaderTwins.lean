import OpenSqlAny.Library.ErrorClasses

namespace OpenSqlAny.Library.ReaderTwins

open Faults CursorReader ErrorClasses

variable {ε α β γ δ σ τ : Type}

/-- The results move the cursor alike or fail with one error, where neither is a panic. -/
def SameCourse : EStateM.Result (Fault ε) Nat α → EStateM.Result (Fault ε) Nat β → Prop
  | .error .panic _, _ => True
  | _, .error .panic _ => True
  | .ok _ c, .ok _ c' => c = c'
  | .error (.err e) _, .error (.err e') _ => e = e'
  | _, _ => False

/-- Two readers that differ in what they return only, as far as neither panics. -/
structure Twins (p : Reader ε α) (q : Reader ε β) : Prop where
  course : ∀ c, SameCourse (p c) (q c)

theorem sameCourse_panic_left (c : Nat) (y : EStateM.Result (Fault ε) Nat β) :
    SameCourse (.error .panic c : EStateM.Result (Fault ε) Nat α) y := trivial

theorem sameCourse_panic_right (x : EStateM.Result (Fault ε) Nat α) (c : Nat) :
    SameCourse x (.error .panic c : EStateM.Result (Fault ε) Nat β) := by
  rcases x with ⟨_, _⟩ | ⟨_ | _, _⟩
  · trivial
  · trivial
  · trivial

theorem Twins.pure (a : α) (b : β) : Twins (pure a : Reader ε α) (pure b : Reader ε β) := ⟨fun _ => rfl⟩

theorem Twins.bind {p : Reader ε α} {p' : Reader ε β} {q : α → Reader ε γ} {q' : β → Reader ε δ} (hp : Twins p p')
    (hq : ∀ a b, Twins (q a) (q' b)) : Twins (p >>= q) (p' >>= q') := by
  constructor
  intro c
  have hcourse := hp.course c
  change SameCourse (EStateM.bind p q c) (EStateM.bind p' q' c)
  rw [EStateM.bind, EStateM.bind]
  revert hcourse
  rcases p c with ⟨a, d⟩ | ⟨e | _, d⟩
  · rcases p' c with ⟨b, d'⟩ | ⟨e' | _, d'⟩
    · rintro (rfl : d = d')
      exact (hq a b).course d
    · exact False.elim
    · exact fun _ => sameCourse_panic_right _ _
  · rcases p' c with ⟨b, d'⟩ | ⟨e' | _, d'⟩
    · exact False.elim
    · exact id
    · exact fun _ => sameCourse_panic_right _ _
  · exact fun _ => sameCourse_panic_left _ _

theorem Twins.bind_same {p : Reader ε α} {q : α → Reader ε γ} {q' : α → Reader ε δ} (hq : ∀ a, Twins (q a) (q' a)) :
    Twins (p >>= q) (p >>= q') := by
  constructor
  intro c
  change SameCourse (EStateM.bind p q c) (EStateM.bind p q' c)
  rw [EStateM.bind, EStateM.bind]
  rcases p c with ⟨a, d⟩ | ⟨e | _, d⟩
  · exact (hq a).course d
  · rfl
  · exact sameCourse_panic_left _ _

theorem Twins.lift {x : Outcome ε α} {y : Outcome ε β} (hx : Raises (fun _ => False) x)
    (hy : Raises (fun _ => False) y) : Twins (CursorReader.lift x) (CursorReader.lift y) := by
  constructor
  intro c
  rcases x with (e | _) | a
  · exact (hx.error e rfl).elim
  · exact sameCourse_panic_left _ _
  · rcases y with (e | _) | b
    · exact (hy.error e rfl).elim
    · exact sameCourse_panic_right _ _
    · rfl

theorem Twins.lift_pure {x : Outcome ε α} (hx : Raises (fun _ => False) x) (b : β) :
    Twins (CursorReader.lift x) (Pure.pure b : Reader ε β) := .lift hx (.ok b)

theorem Twins.foldlM {step : σ → γ → Reader ε σ} {step' : τ → γ → Reader ε τ} {xs : List γ}
    (hstep : ∀ s t x, x ∈ xs → Twins (step s x) (step' t x)) (s : σ) (t : τ) :
    Twins (xs.foldlM step s) (xs.foldlM step' t) := by
  induction xs generalizing s t with
  | nil => exact .pure s t
  | cons x xs ih =>
      rw [List.foldlM_cons, List.foldlM_cons]
      refine .bind (hstep s t x List.mem_cons_self) fun s t => ?_
      exact ih (fun s t y hy => hstep s t y (List.mem_cons_of_mem x hy)) s t

/-- Readers that never panic fail with the same errors. -/
theorem Twins.runFrom_fail_iff {p : Reader ε α} {q : Reader ε β} (h : Twins p q) {c : Nat}
    (hp : runFrom p c ≠ .error .panic) (hq : runFrom q c ≠ .error .panic) (e : ε) :
    runFrom p c = fail e ↔ runFrom q c = fail e := by
  have hcourse := h.course c
  rw [runFrom] at hp hq
  rw [runFrom, runFrom]
  rcases hpc : p c with ⟨a, d⟩ | ⟨e₁ | _, d⟩
  · rcases hqc : q c with ⟨b, d'⟩ | ⟨e₂ | _, d'⟩
    · simp [fail]
    · rw [hpc, hqc] at hcourse
      exact False.elim hcourse
    · rw [hqc] at hq
      exact absurd rfl hq
  · rcases hqc : q c with ⟨b, d'⟩ | ⟨e₂ | _, d'⟩
    · rw [hpc, hqc] at hcourse
      exact False.elim hcourse
    · rw [hpc, hqc] at hcourse
      obtain rfl : e₁ = e₂ := hcourse
      simp [fail]
    · rw [hqc] at hq
      exact absurd rfl hq
  · rw [hpc] at hp
    exact absurd rfl hp

end OpenSqlAny.Library.ReaderTwins
