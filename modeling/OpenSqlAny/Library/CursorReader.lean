import Mathlib.Data.Nat.Basic
import Mathlib.Order.Basic
import OpenSqlAny.Library.Faults

namespace OpenSqlAny.Library.CursorReader

open Faults

/-- A computation that moves a cursor over a row and may fail. The cursor it
has reached is kept also when it fails, as a mutable reference keeps it. -/
abbrev Reader (ε α : Type) := EStateM (Fault ε) Nat α

variable {ε α β γ : Type}

def lift (x : Outcome ε α) : Reader ε α := fun c =>
  match x with
  | .ok a => .ok a c
  | .error e => .error e c

def takeOr (row : List β) (count : Nat) (short : Nat → ε) : Reader ε (List β) := fun c =>
  if row.length - c < count then .error (.err (short (row.length - c))) c
  else
    match slice row c (c + count) with
    | .ok bytes => .ok bytes (c + count)
    | .error e => .error e c

def guard (limit : Nat) (e : ε) : Reader ε Unit := fun c =>
  if c ≤ limit then .ok () c else .error (.err e) c

def runFrom (p : Reader ε α) (c : Nat) : Outcome ε (α × Nat) :=
  match p c with
  | .ok a c' => .ok (a, c')
  | .error e _ => .error e

def cursorOf : EStateM.Result (Fault ε) Nat α → Nat
  | .ok _ c => c
  | .error _ c => c

theorem bind_eq_ok_iff {p : Reader ε α} {q : α → Reader ε β} {c : Nat} {b : β} {c' : Nat} :
    (p >>= q) c = .ok b c' ↔ ∃ a d, p c = .ok a d ∧ q a d = .ok b c' := by
  change EStateM.bind p q c = _ ↔ _
  rw [EStateM.bind]
  cases p c <;> simp

theorem bind_eq_error_iff {p : Reader ε α} {q : α → Reader ε β} {c : Nat} {e : Fault ε} {c' : Nat} :
    (p >>= q) c = .error e c' ↔
      p c = .error e c' ∨ ∃ a d, p c = .ok a d ∧ q a d = .error e c' := by
  change EStateM.bind p q c = _ ↔ _
  rw [EStateM.bind]
  cases p c <;> simp

theorem lift_eq_error_iff {x : Outcome ε α} {e : Fault ε} {c c' : Nat} :
    lift x c = .error e c' ↔ x = .error e ∧ c' = c := by
  rw [lift.eq_def]
  cases x <;> simp [eq_comm]

/-- `p` reads exactly the grammar `G`: from a cursor within `limit` it succeeds
with `v` just when some `f` with `G v f` stands there and ends within `limit`,
and it then stops after that `f`. Its failures are never panics, and they leave
the cursor inside the row. -/
structure Reads (row : List β) (limit : Nat) (p : Reader ε α) (G : α → List β → Prop) : Prop where
  ok_iff : ∀ {c}, c ≤ limit → ∀ v c', p c = .ok v c' ↔
    ∃ f, G v f ∧ f <+: row.drop c ∧ c' = c + f.length ∧ c' ≤ limit
  failed : ∀ {c}, c ≤ limit → ∀ {e c'}, p c = .error e c' → e ≠ .panic ∧ c ≤ c' ∧ c' ≤ row.length

/-- `p` never panics, never leaves the row or moves back, and returns only values in `Q`. -/
structure Safe (row : List β) (p : Reader ε α) (Q : α → Prop) : Prop where
  ok : ∀ {c}, c ≤ row.length → ∀ {v c'}, p c = .ok v c' → c ≤ c' ∧ c' ≤ row.length ∧ Q v
  failed : ∀ {c}, c ≤ row.length → ∀ {e c'}, p c = .error e c' →
    e ≠ .panic ∧ c ≤ c' ∧ c' ≤ row.length

theorem prefix_append_iff {xs f g : List β} {c : Nat} :
    f ++ g <+: xs.drop c ↔ f <+: xs.drop c ∧ g <+: xs.drop (c + f.length) := by
  constructor
  · rintro ⟨r, hr⟩
    refine ⟨⟨g ++ r, by simpa using hr⟩, ⟨r, ?_⟩⟩
    rw [← List.drop_drop, ← hr]
    simp
  · rintro ⟨⟨r, hr⟩, ⟨s, hs⟩⟩
    refine ⟨s, ?_⟩
    rw [← List.drop_drop, ← hr, List.drop_left] at hs
    rw [List.append_assoc, hs, hr]

theorem prefix_end_le {xs f : List β} {c : Nat} (hc : c ≤ xs.length) (h : f <+: xs.drop c) :
    c + f.length ≤ xs.length := by
  have hf := h.length_le
  rw [List.length_drop] at hf
  omega

section Rules

variable {row : List β} {limit : Nat}

theorem Reads.congr {p : Reader ε α} {G H : α → List β → Prop} (h : Reads row limit p G)
    (hGH : ∀ v f, G v f ↔ H v f) : Reads row limit p H where
  ok_iff hc v c' := by simp only [h.ok_iff hc, hGH]
  failed hc _ _ he := h.failed hc he

theorem Reads.pure (a : α) :
    Reads row limit (pure a : Reader ε α) (fun v f => v = a ∧ f = []) where
  ok_iff {c} hc v c' := by
    change EStateM.pure a c = _ ↔ _
    simp only [EStateM.pure, EStateM.Result.ok.injEq]
    constructor
    · rintro ⟨rfl, rfl⟩
      exact ⟨[], ⟨rfl, rfl⟩, List.nil_prefix, rfl, hc⟩
    · rintro ⟨f, ⟨rfl, rfl⟩, -, hc', -⟩
      exact ⟨rfl, by simpa using hc'.symm⟩
  failed hc _ _ he := by cases he

theorem Reads.fail (hl : limit ≤ row.length) (e : ε) :
    Reads row limit (lift (Faults.fail e) : Reader ε α) (fun _ _ => False) where
  ok_iff hc v c' := by simp [lift, Faults.fail]
  failed {c} hc e' c' he := by
    simp only [lift, Faults.fail, EStateM.Result.error.injEq] at he
    obtain ⟨rfl, rfl⟩ := he
    exact ⟨by simp, le_rfl, hc.trans hl⟩

theorem Reads.bind {p : Reader ε α} {q : α → Reader ε γ}
    {G : α → List β → Prop} {H : α → γ → List β → Prop} (hp : Reads row limit p G)
    (hq : ∀ a f, G a f → Reads row limit (q a) (H a)) :
    Reads row limit (p >>= q) (fun v f => ∃ a g h, G a g ∧ H a v h ∧ f = g ++ h) where
  ok_iff {c} hc v c' := by
    rw [bind_eq_ok_iff]
    constructor
    · rintro ⟨a, d, ha, hv⟩
      obtain ⟨g, hg, hgr, rfl, hd⟩ := (hp.ok_iff hc a d).mp ha
      obtain ⟨h, hh, hhr, rfl, hc'⟩ := ((hq a g hg).ok_iff hd v c').mp hv
      refine ⟨g ++ h, ⟨a, g, h, hg, hh, rfl⟩, prefix_append_iff.mpr ⟨hgr, hhr⟩, ?_, hc'⟩
      simp [Nat.add_assoc]
    · rintro ⟨f, ⟨a, g, h, hg, hh, rfl⟩, hfr, rfl, hc'⟩
      obtain ⟨hgr, hhr⟩ := prefix_append_iff.mp hfr
      rw [List.length_append] at hc'
      have hd : c + g.length ≤ limit := by omega
      refine ⟨a, c + g.length, (hp.ok_iff hc a _).mpr ⟨g, hg, hgr, rfl, hd⟩, ?_⟩
      exact ((hq a g hg).ok_iff hd v _).mpr ⟨h, hh, hhr, by simp [Nat.add_assoc], by simpa using hc'⟩
  failed {c} hc e c' he := by
    rcases bind_eq_error_iff.mp he with he | ⟨a, d, ha, he⟩
    · exact hp.failed hc he
    · obtain ⟨g, hg, -, rfl, hd⟩ := (hp.ok_iff hc a d).mp ha
      obtain ⟨hne, hle, hlen⟩ := (hq a g hg).failed hd he
      exact ⟨hne, by omega, hlen⟩

theorem Reads.takeOr (count : Nat) (short : Nat → ε) :
    Reads row row.length (takeOr row count short) (fun v f => f = v ∧ v.length = count) where
  ok_iff {c} hc v c' := by
    rw [CursorReader.takeOr]
    by_cases h : row.length - c < count
    · simp only [h, ↓reduceIte, reduceCtorEq, false_iff, not_exists, not_and]
      rintro f ⟨rfl, hv⟩ hfr
      have := prefix_end_le hc hfr
      omega
    · have hs := @slice_of_le ε β row c (c + count) (by omega) (by omega)
      simp only [h, ↓reduceIte, hs, EStateM.Result.ok.injEq]
      constructor
      · rintro ⟨rfl, rfl⟩
        refine ⟨_, ⟨rfl, ?_⟩, ?_, ?_, by omega⟩
        · simp only [List.length_drop, List.length_take]; omega
        · rw [← List.take_drop]
          exact List.take_prefix _ _
        · simp only [List.length_drop, List.length_take]; omega
      · rintro ⟨f, ⟨rfl, rfl⟩, hfr, rfl, -⟩
        refine ⟨?_, rfl⟩
        rw [← List.take_drop]
        exact (List.prefix_iff_eq_take.mp hfr).symm
  failed {c} hc e c' he := by
    rw [CursorReader.takeOr] at he
    by_cases h : row.length - c < count
    · simp only [h, ↓reduceIte, EStateM.Result.error.injEq] at he
      obtain ⟨rfl, rfl⟩ := he
      exact ⟨by simp, le_rfl, hc⟩
    · have hs := @slice_of_le ε β row c (c + count) (by omega) (by omega)
      simp [h, hs] at he

theorem Reads.lift_of_eq {x : Outcome ε α} {a : α} (h : x = .ok a) :
    Reads row limit (lift x) (fun v f => v = a ∧ f = []) := by
  subst h
  exact Reads.pure a

theorem Reads.lift (hl : limit ≤ row.length) {x : Outcome ε α} (h : x ≠ .error .panic) :
    Reads row limit (CursorReader.lift x) (fun v f => x = .ok v ∧ f = []) := by
  rcases x with (e | _) | a
  · exact (Reads.fail hl e).congr (by simp)
  · exact absurd rfl h
  · exact (Reads.pure a).congr (by simp [eq_comm])

/-- Reading under a guard on the cursor is reading within a shorter limit. -/
theorem Reads.guarded (hl : limit ≤ row.length) {p : Reader ε α} {G : α → List β → Prop}
    (h : Reads row row.length p G) (e : ε) :
    Reads row limit (p >>= fun v => guard limit e >>= fun _ => Pure.pure v) G where
  ok_iff {c} hc v c' := by
    rw [bind_eq_ok_iff]
    constructor
    · rintro ⟨a, d, ha, hv⟩
      obtain ⟨f, hf, hfr, rfl, -⟩ := (h.ok_iff (hc.trans hl) a d).mp ha
      obtain ⟨_, _, hg, hv⟩ := bind_eq_ok_iff.mp hv
      rw [CursorReader.guard] at hg
      split at hg
      next hd =>
        cases hg
        cases hv
        exact ⟨f, hf, hfr, rfl, hd⟩
      next => cases hg
    · rintro ⟨f, hf, hfr, rfl, hc'⟩
      refine ⟨v, c + f.length, (h.ok_iff (hc.trans hl) v _).mpr ⟨f, hf, hfr, rfl, hc'.trans hl⟩, ?_⟩
      rw [bind_eq_ok_iff]
      exact ⟨(), c + f.length, by simp [CursorReader.guard, hc'], rfl⟩
  failed {c} hc e' c' he := by
    rcases bind_eq_error_iff.mp he with he | ⟨a, d, ha, he⟩
    · exact h.failed (hc.trans hl) he
    · obtain ⟨f, -, hfr, rfl, hd⟩ := (h.ok_iff (hc.trans hl) a d).mp ha
      rcases bind_eq_error_iff.mp he with he | ⟨_, _, -, he⟩
      · rw [CursorReader.guard] at he
        split at he
        · cases he
        · cases he
          exact ⟨by simp, by omega, hd⟩
      · cases he

theorem Reads.safe {p : Reader ε α} {G : α → List β → Prop} (h : Reads row row.length p G) :
    Safe row p (fun v => ∃ f, G v f) where
  ok {c} hc v c' hv := by
    obtain ⟨f, hf, -, rfl, hc'⟩ := (h.ok_iff hc v c').mp hv
    exact ⟨by omega, hc', f, hf⟩
  failed hc _ _ he := h.failed hc he

theorem Reads.runFrom_ne_panic {p : Reader ε α} {G : α → List β → Prop} (h : Reads row limit p G) {c : Nat}
    (hc : c ≤ limit) : runFrom p c ≠ .error .panic := by
  rw [runFrom]
  cases hp : p c with
  | ok v c' => simp
  | error e c' => simpa using (h.failed hc hp).1

theorem Safe.mono {p : Reader ε α} {Q R : α → Prop} (h : Safe row p Q) (hQR : ∀ v, Q v → R v) :
    Safe row p R where
  ok hc _ _ hv := let ⟨h₁, h₂, h₃⟩ := h.ok hc hv; ⟨h₁, h₂, hQR _ h₃⟩
  failed hc _ _ he := h.failed hc he

theorem Safe.bind {p : Reader ε α} {q : α → Reader ε γ} {Q : α → Prop} {R : γ → Prop}
    (hp : Safe row p Q) (hq : ∀ a, Q a → Safe row (q a) R) : Safe row (p >>= q) R where
  ok hc v c' hv := by
    obtain ⟨a, d, ha, hv⟩ := bind_eq_ok_iff.mp hv
    obtain ⟨hcd, hd, hQ⟩ := hp.ok hc ha
    obtain ⟨hdc, hc', hR⟩ := (hq a hQ).ok hd hv
    exact ⟨hcd.trans hdc, hc', hR⟩
  failed hc e c' he := by
    rcases bind_eq_error_iff.mp he with he | ⟨a, d, ha, he⟩
    · exact hp.failed hc he
    · obtain ⟨hcd, hd, hQ⟩ := hp.ok hc ha
      obtain ⟨hne, hle, hlen⟩ := (hq a hQ).failed hd he
      exact ⟨hne, hcd.trans hle, hlen⟩

theorem Safe.pure {Q : α → Prop} {a : α} (h : Q a) : Safe row (pure a : Reader ε α) Q where
  ok hc v c' hv := by cases hv; exact ⟨le_rfl, hc, h⟩
  failed hc e c' he := by cases he

theorem Safe.guard (limit : Nat) (e : ε) : Safe row (CursorReader.guard limit e) (fun _ => True) where
  ok {c} hc v c' hv := by
    rw [CursorReader.guard] at hv
    split at hv
    · cases hv; exact ⟨le_rfl, hc, trivial⟩
    · cases hv
  failed {c} hc e' c' he := by
    rw [CursorReader.guard] at he
    split at he
    · cases he
    · cases he; exact ⟨by simp, le_rfl, hc⟩

theorem Safe.cursorOf_le {p : Reader ε α} {Q : α → Prop} (h : Safe row p Q) {c : Nat}
    (hc : c ≤ row.length) : cursorOf (p c) ≤ row.length := by
  cases hp : p c with
  | ok v c' => exact (h.ok hc hp).2.1
  | error e c' => exact (h.failed hc hp).2.2

theorem Safe.runFrom_ne_panic {p : Reader ε α} {Q : α → Prop} (h : Safe row p Q) {c : Nat}
    (hc : c ≤ row.length) : runFrom p c ≠ .error .panic := by
  rw [runFrom]
  cases hp : p c with
  | ok v c' => simp
  | error e c' => simpa using (h.failed hc hp).1

theorem Safe.foldlM {σ : Type} {Q : σ → Prop} {step : σ → γ → Reader ε σ} (xs : List γ)
    (hstep : ∀ s x, x ∈ xs → Q s → Safe row (step s x) Q) (s : σ) (hs : Q s) :
    Safe row (xs.foldlM step s) Q := by
  induction xs generalizing s with
  | nil => exact Safe.pure hs
  | cons x xs ih =>
      rw [List.foldlM_cons]
      exact Safe.bind (hstep s x (by simp) hs)
        (fun s' hs' => ih (fun t y hy => hstep t y (List.mem_cons_of_mem _ hy)) s' hs')

end Rules

theorem runFrom_eq_ok_iff {p : Reader ε α} {c : Nat} {v : α} {c' : Nat} :
    runFrom p c = .ok (v, c') ↔ p c = .ok v c' := by
  rw [runFrom]
  cases p c <;> simp

theorem runFrom_bind (p : Reader ε α) (q : α → Reader ε β) (c : Nat) :
    runFrom (p >>= q) c = runFrom p c >>= fun s => runFrom (q s.1) s.2 := by
  change runFrom (EStateM.bind p q) c = _
  rw [runFrom, runFrom, EStateM.bind]
  cases p c with
  | ok a d => rfl
  | error e d => rfl

end OpenSqlAny.Library.CursorReader
