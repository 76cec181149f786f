import Mathlib.Algebra.Order.Group.Nat

namespace OpenSqlAny.Library.TextWords

/-- The word behind the spaces that a text begins with, and what follows the word. -/
def readWord (text : List Char) : List Char × List Char :=
  let text := text.dropWhile fun c => c == ' '
  (text.takeWhile fun c => c != ' ', text.dropWhile fun c => c != ' ')

def paddedLeft (width : Nat) (text : List Char) : List Char := List.replicate (width - text.length) ' ' ++ text

variable {spaces word : List Char}

theorem readWord_written (hspaces : ∀ c ∈ spaces, c = ' ') (hne : word ≠ []) (hword : ∀ c ∈ word, c ≠ ' ')
    (rest : List Char) : readWord (spaces ++ (word ++ ' ' :: rest)) = (word, ' ' :: rest) := by
  have hinside : ∀ c ∈ word, (c != ' ') = true := fun c hc => bne_iff_ne.mpr (hword c hc)
  have hskip : (spaces ++ (word ++ ' ' :: rest)).dropWhile (fun c => c == ' ') = word ++ ' ' :: rest := by
    obtain ⟨c, word, rfl⟩ := List.exists_cons_of_ne_nil hne
    have hfirst := hword c List.mem_cons_self
    rw [List.dropWhile_append_of_pos (fun d hd => beq_iff_eq.mpr (hspaces d hd)), List.cons_append,
      List.dropWhile_cons_of_neg (by simpa using hfirst)]
  rw [readWord]
  simp only [hskip]
  rw [List.takeWhile_append_of_pos hinside, List.dropWhile_append_of_pos hinside]
  simp

theorem readWord_paddedLeft (width : Nat) (hspaces : ∀ c ∈ spaces, c = ' ') (hne : word ≠ [])
    (hword : ∀ c ∈ word, c ≠ ' ') (rest : List Char) :
    readWord (spaces ++ (paddedLeft width word ++ ' ' :: rest)) = (word, ' ' :: rest) := by
  rw [paddedLeft, List.append_assoc, ← List.append_assoc]
  apply readWord_written _ hne hword
  intro c hc
  rcases List.mem_append.mp hc with hspace | hpad
  · exact hspaces c hspace
  · exact List.eq_of_mem_replicate hpad

theorem ne_space_of_mem_toDigits {n : Nat} : ∀ c ∈ Nat.toDigits 10 n, c ≠ ' ' := by
  rintro c hc rfl
  exact absurd (Nat.isDigit_of_mem_toDigits (by decide) (by decide) hc) (by decide)

theorem readWord_number (width n : Nat) (hspaces : ∀ c ∈ spaces, c = ' ') (rest : List Char) :
    readWord (spaces ++ (paddedLeft width (Nat.toDigits 10 n) ++ ' ' :: rest)) =
      (Nat.toDigits 10 n, ' ' :: rest) :=
  readWord_paddedLeft width hspaces Nat.toDigits_ne_nil ne_space_of_mem_toDigits rest

end OpenSqlAny.Library.TextWords
