import Mathlib.Tactic.ByContra

namespace OpenSqlAny.Library.Rounds

/-- What one round of a loop does: it ends the loop, or it goes on at the next head. -/
inductive Round (S R : Type)
  | returns (result : R)
  | goesOn (state : S)

variable {S R : Type} {round : S → Round S R} {start s s' : S} {n : Nat}

/-- The state at whose head a loop stands after so many whole rounds. -/
inductive Reaches (round : S → Round S R) (start : S) : Nat → S → Prop
  | start : Reaches round start 0 start
  | next {n : Nat} {s s' : S} (reached : Reaches round start n s) (goesOn : round s = .goesOn s') :
      Reaches round start (n + 1) s'

/-- The round after the first n ones ends the loop with this result. -/
def ReturnsAfter (round : S → Round S R) (start : S) (n : Nat) (result : R) : Prop :=
  ∃ s, Reaches round start n s ∧ round s = .returns result

theorem Reaches.invariant (Inv : Nat → S → Prop) (hstart : Inv 0 start)
    (hround : ∀ n s s', Inv n s → round s = .goesOn s' → Inv (n + 1) s') (h : Reaches round start n s) : Inv n s := by
  induction h with
  | start => exact hstart
  | next reached goesOn ih => exact hround _ _ _ ih goesOn

theorem Reaches.of_goesOn (reached : Reaches round s n s') (h : round start = .goesOn s) :
    Reaches round start (n + 1) s' := by
  induction reached with
  | start => exact .next .start h
  | next reached goesOn ih => exact .next ih goesOn

variable (round start) in
/-- A loop none of whose heads comes after so many rounds returns before that. -/
theorem returnsAfter_of_bound (bound : Nat) (h : ∀ n s, Reaches round start n s → n < bound) :
    ∃ n result, n < bound ∧ ReturnsAfter round start n result := by
  -- Otherwise there is a head after any number of rounds, also after the bound.
  by_contra hnever
  have reached (n : Nat) : ∃ s, Reaches round start n s := by
    induction n with
    | zero => exact ⟨start, .start⟩
    | succ n ih =>
        obtain ⟨s, hs⟩ := ih
        cases hround : round s with
        | returns result => exact absurd ⟨n, result, h n s hs, s, hs, hround⟩ hnever
        | goesOn s' => exact ⟨s', .next hs hround⟩
  obtain ⟨s, hs⟩ := reached bound
  exact Nat.lt_irrefl bound (h bound s hs)

section Loops

def Loops (round : S → Round S R) (loop : S → R) : Prop :=
  ∀ s, loop s = match round s with
    | .returns result => result
    | .goesOn s' => loop s'

variable {loop : S → R} {result : R}

theorem Reaches.loop_eq (unfolds : Loops round loop) (h : Reaches round start n s) : loop start = loop s := by
  induction h with
  | start => rfl
  | next reached goesOn ih => rw [ih, unfolds, goesOn]

theorem ReturnsAfter.loop_eq (unfolds : Loops round loop) (h : ReturnsAfter round start n result) :
    loop start = result := by
  obtain ⟨s, reached, returns⟩ := h
  rw [reached.loop_eq unfolds, unfolds, returns]

end Loops

section Bounded

/-- The loop, left after so many rounds when none of them ends it. -/
def runFor (round : S → Round S R) : Nat → S → Round S R
  | 0, s => .goesOn s
  | n + 1, s => match round s with
    | .returns result => .returns result
    | .goesOn s' => runFor round n s'

variable {m : Nat} {result : R}

theorem runFor_add (h : runFor round m start = .goesOn s) :
    runFor round (m + n) start = runFor round n s := by
  induction m generalizing start with
  | zero =>
      cases h
      rw [Nat.zero_add]
  | succ m ih =>
      rw [Nat.succ_add, runFor]
      rw [runFor] at h
      cases hround : round start with
      | returns result =>
          rw [hround] at h
          cases h
      | goesOn s' =>
          rw [hround] at h
          exact ih h

theorem runFor_returns_mono (h : runFor round m start = .returns result) (hle : m ≤ n) :
    runFor round n start = .returns result := by
  induction m generalizing start n with
  | zero => cases h
  | succ m ih =>
      obtain ⟨n, rfl⟩ : ∃ k, n = k + 1 := ⟨n - 1, by omega⟩
      rw [runFor]
      rw [runFor] at h
      cases hround : round start with
      | returns result' =>
          rw [hround] at h
          exact h
      | goesOn s' =>
          rw [hround] at h
          exact ih h (Nat.le_of_succ_le_succ hle)

theorem Reaches.of_runFor (h : runFor round n start = .goesOn s) : Reaches round start n s := by
  induction n generalizing start with
  | zero =>
      cases h
      exact .start
  | succ n ih =>
      rw [runFor] at h
      cases hround : round start with
      | returns result =>
          rw [hround] at h
          cases h
      | goesOn s' =>
          rw [hround] at h
          exact (ih h).of_goesOn hround

theorem Reaches.runFor_eq (h : Reaches round start n s) : runFor round n start = .goesOn s := by
  induction h with
  | start => rfl
  | next reached goesOn ih =>
      rw [runFor_add ih]
      simp only [runFor, goesOn]

theorem ReturnsAfter.runFor_eq {k : Nat} (h : ReturnsAfter round start k result) (hk : k < n) :
    runFor round n start = .returns result := by
  obtain ⟨s, reached, returns⟩ := h
  have hrun : runFor round (k + 1) start = .returns result := by
    rw [runFor_add reached.runFor_eq]
    simp only [runFor, returns]
  exact runFor_returns_mono hrun hk

theorem Reaches.le_of_returnsAfter {k : Nat} (h : Reaches round start n s)
    (hreturns : ReturnsAfter round start k result) : n ≤ k := by
  by_contra hlt
  have hrun := hreturns.runFor_eq (Nat.lt_of_not_le hlt)
  rw [h.runFor_eq] at hrun
  cases hrun

theorem ReturnsAfter.of_runFor (h : runFor round n start = .returns result) :
    ∃ k, k < n ∧ ReturnsAfter round start k result := by
  induction n with
  | zero => cases h
  | succ n ih =>
      cases hrun : runFor round n start with
      | returns result' =>
          have hmono := runFor_returns_mono hrun (Nat.le_succ n)
          obtain rfl : result' = result := Round.returns.inj (hmono.symm.trans h)
          obtain ⟨k, hk, hreturns⟩ := ih hrun
          exact ⟨k, Nat.lt_succ_of_lt hk, hreturns⟩
      | goesOn s =>
          refine ⟨n, Nat.lt_succ_self n, s, .of_runFor hrun, ?_⟩
          rw [runFor_add hrun, runFor] at h
          cases hround : round s with
          | returns result' =>
              rw [hround] at h
              exact h
          | goesOn s' =>
              rw [hround] at h
              cases h

theorem ReturnsAfter.of_reaches {k : Nat} (h : Reaches round start n s) (hreturns : ReturnsAfter round start k result) :
    ∃ j, ReturnsAfter round s j result := by
  have hn := h.le_of_returnsAfter hreturns
  have hrun := hreturns.runFor_eq (Nat.lt_add_one k)
  rw [show k + 1 = n + (k + 1 - n) by omega, runFor_add h.runFor_eq] at hrun
  obtain ⟨j, -, hreturns⟩ := ReturnsAfter.of_runFor hrun
  exact ⟨j, hreturns⟩

end Bounded

section Resources

variable {round' : S → Round S R} {loop' : S → R} {result : R} (Gives : S → R → Prop)

theorem Reaches.of_agree (agree : ∀ s, round s = round' s ∨ ∃ result, round s = .returns result ∧ Gives s result)
    (h : Reaches round start n s) : Reaches round' start n s := by
  induction h with
  | start => exact .start
  | next reached goesOn ih =>
      rcases agree _ with hsame | ⟨result, hgives, -⟩
      · exact .next ih (hsame.symm.trans goesOn)
      · rw [goesOn] at hgives
        cases hgives

/-- The loops end with one result, or the first has given up where the second goes on. -/
theorem ReturnsAfter.of_agree (unfolds : Loops round' loop')
    (agree : ∀ s, round s = round' s ∨ ∃ result, round s = .returns result ∧ Gives s result)
    (h : ReturnsAfter round start n result) :
    loop' start = result ∨ ∃ s, Reaches round' start n s ∧ Gives s result := by
  obtain ⟨s, reached, returns⟩ := h
  have reached := reached.of_agree Gives agree
  rcases agree s with hsame | ⟨result', hgives, h⟩
  · exact .inl (ReturnsAfter.loop_eq unfolds ⟨s, reached, hsame.symm.trans returns⟩)
  · obtain rfl : result' = result := Round.returns.inj (hgives.symm.trans returns)
    exact .inr ⟨s, reached, h⟩

end Resources

end OpenSqlAny.Library.Rounds
