import Mathlib.Data.List.TakeDrop
import Mathlib.Data.List.TakeWhile
import PackageHistory.Text.Blank

/-!
# Texts that are cut and joined

Digits and small letters are ranges of characters. A run of characters ends where one fails the test, and
cutting undoes joining when no piece holds the separator.
-/

namespace PackageHistory.Text

/-! ## Characters -/

theorem isLower_iff {c : Char} : c.isLower = true ↔ 97 ≤ c.toNat ∧ c.toNat ≤ 122 := by
  delta Char.isLower
  simp only [Bool.and_eq_true, decide_eq_true_eq, ge_iff_le, UInt32.le_iff_toNat_le]
  rfl

theorem isDigit_iff {c : Char} : c.isDigit = true ↔ 48 ≤ c.toNat ∧ c.toNat ≤ 57 := by
  simp only [Char.isDigit, Bool.and_eq_true, decide_eq_true_eq, ge_iff_le, UInt32.le_iff_toNat_le]
  rfl

theorem ne_of_test {p : Char → Bool} {c d : Char} (hc : p c = true) (hd : p d = false) : c ≠ d := by
  rintro rfl
  rw [hd] at hc
  cases hc

/-! ## Runs -/

theorem span_append {p : Char → Bool} {run rest : Text} (hrun : ∀ c ∈ run, p c = true)
    (hrest : ∀ c ∈ rest.head?, p c = false) : (run ++ rest).span p = (run, rest) := by
  rw [List.span_eq_takeWhile_dropWhile, List.takeWhile_append_of_pos hrun,
    List.dropWhile_append_of_pos hrun]
  cases rest with
  | nil => simp
  | cons c rest =>
    have hc : p c = false := hrest c rfl
    simp [hc]

theorem of_span_eq {p : Char → Bool} {t run rest : Text} (h : t.span p = (run, rest)) :
    t = run ++ rest ∧ (∀ c ∈ run, p c = true) ∧ ∀ c ∈ rest.head?, p c = false := by
  rw [List.span_eq_takeWhile_dropWhile, Prod.mk.injEq] at h
  obtain ⟨rfl, rfl⟩ := h
  refine ⟨List.takeWhile_append_dropWhile.symm, fun c hc => List.mem_takeWhile_imp hc, ?_⟩
  intro c hc
  have hhead := List.head?_dropWhile_not p t
  rw [Option.mem_def.mp hc] at hhead
  simpa using hhead

/-! ## Pieces -/

variable {sep : Char} {pieces more : List Text}

theorem splitOn_eq (sep : Char) (t : Text) : splitOn sep t = List.splitOn sep t := by
  induction t with
  | nil => rfl
  | cons c cs ih =>
    rw [splitOn, ih, List.splitOn_cons_eq_if_modifyHead]
    by_cases hc : c = sep
    · simp [hc]
    · cases hs : List.splitOn sep cs with
      | nil => exact absurd hs (List.splitOn_ne_nil sep cs)
      | cons piece pieces => simp [hc]

theorem splitOn_append_sep (sep : Char) (s t : Text) :
    splitOn sep (s ++ sep :: t) = splitOn sep s ++ splitOn sep t := by
  simp only [splitOn_eq]
  exact List.splitOn_append_cons_self ..

theorem splitOn_of_not_mem {t : Text} (h : sep ∉ t) : splitOn sep t = [t] := by
  rw [splitOn_eq, List.splitOn_eq_singleton h]

@[simp] theorem join_nil (sep : Text) : join sep [] = [] := rfl

@[simp] theorem join_singleton (sep piece : Text) : join sep [piece] = piece := by
  simp [join, List.intercalate]

theorem join_cons_cons (sep piece next : Text) (rest : List Text) :
    join sep (piece :: next :: rest) = piece ++ sep ++ join sep (next :: rest) := by
  simp [join, List.intercalate]

theorem join_cons (sep piece : Text) (rest : List Text) :
    join sep (piece :: rest) = piece ++ rest.flatMap (sep ++ ·) := by
  induction rest generalizing piece with
  | nil => simp
  | cons next rest ih => rw [join_cons_cons, ih, List.flatMap_cons, List.append_assoc, List.append_assoc]

theorem join_append_join (sep : Text) (hne : pieces ≠ []) (hmore : more ≠ []) :
    join sep (pieces ++ more) = join sep pieces ++ sep ++ join sep more := by
  obtain ⟨piece, rest, rfl⟩ := List.exists_cons_of_ne_nil hne
  obtain ⟨next, others, rfl⟩ := List.exists_cons_of_ne_nil hmore
  rw [List.cons_append, join_cons, join_cons, join_cons]
  simp

theorem splitOn_join (hne : pieces ≠ []) (h : ∀ piece ∈ pieces, sep ∉ piece) :
    splitOn sep (join [sep] pieces) = pieces := by
  rw [splitOn_eq, join, List.splitOn_intercalate sep h hne]

theorem splitOn_eq_iff (hne : pieces ≠ []) {t : Text} :
    splitOn sep t = pieces ↔ t = join [sep] pieces ∧ ∀ piece ∈ pieces, sep ∉ piece := by
  constructor
  · rintro rfl
    exact ⟨(join_splitOn sep t).symm, fun piece => not_mem_of_mem_splitOn⟩
  · rintro ⟨rfl, h⟩
    exact splitOn_join hne h

/-- A separator that stands once in a text cuts it in one way. -/
theorem eq_of_append_sep {s t s' t' : Text} (h : s ++ sep :: t = s' ++ sep :: t') (hs : sep ∉ s')
    (ht : sep ∉ t') : s = s' ∧ t = t' := by
  rcases List.append_eq_append_iff.mp h with ⟨between, hs', hrest⟩ | ⟨between, -, hrest⟩
  · cases between with
    | nil => exact ⟨by simpa using hs'.symm, by simpa using hrest⟩
    | cons c more =>
      obtain ⟨rfl, -⟩ := List.cons.inj hrest
      exact absurd (by simp [hs']) hs
  · cases between with
    | nil => simp_all
    | cons c more =>
      obtain ⟨rfl, rfl⟩ := List.cons.inj hrest
      exact absurd (by simp) ht

/-! ## White space -/

variable {t line : Text}

theorem trimEnd_append (lead : Text) (hne : lead ≠ []) (hlast : ∀ c ∈ lead.getLast?, isBlank c = false)
    (t : Text) : trimEnd (lead ++ t) = lead ++ trimEnd t := by
  have hend : lead.reverse.dropWhile isBlank = lead.reverse := by
    obtain ⟨before, last, rfl⟩ := (List.eq_nil_or_concat lead).resolve_left hne
    have hc : isBlank last = false := hlast last (by simp)
    rw [List.concat_eq_append, List.reverse_append]
    exact List.dropWhile_cons_of_neg (by simp [hc])
  rw [trimEnd, trimEnd, List.reverse_append, List.dropWhile_append]
  split
  · next hnone =>
    rw [hend, List.isEmpty_iff.mp hnone, List.reverse_reverse, List.reverse_nil, List.append_nil]
  · rw [List.reverse_append, List.reverse_reverse]

theorem trimEnd_slash (t rest : Text) : trimEnd (t ++ '/' :: rest) = t ++ '/' :: trimEnd rest := by
  have hlead := trimEnd_append (t ++ ['/']) (by simp)
    (fun d hd => by rw [List.getLast?_concat] at hd; cases hd; decide) rest
  rwa [List.append_assoc, List.append_assoc] at hlead

theorem mem_filledLines :
    line ∈ t.filledLines ↔ line ≠ [] ∧ ∃ l ∈ t.splitOn '\n', l.trim = line := by
  rw [filledLines, List.mem_filter, List.mem_map, and_comm]
  simp

end PackageHistory.Text
