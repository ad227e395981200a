import Mathlib.Data.List.Forall2
import PackageHistory.Change
import PackageHistory.Proofs.Cpv

/-!
# What file lines stand for

A file line is read just when it is spelled as its grammar has it, and then in one way. Each line of a commit
stands for at most one change of a package version, a rename among local commits for two.
-/

namespace PackageHistory

/-! ## Paths -/

/-- A name between the slashes and tabs of a file line. -/
structure IsField (t : Text) : Prop where
  filled : t ≠ []
  slash : '/' ∉ t
  tab : '\t' ∉ t

namespace EbuildPath

variable {p : EbuildPath} {t : Text} {x : Cpv}

/-- The text is `category/folder/name.ebuild` with some folder. -/
def IsSpelled (p : EbuildPath) (t : Text) : Prop :=
  ∃ folder, IsField p.category ∧ IsField folder ∧ IsField p.name ∧
    t = Text.join ['/'] [p.category, folder, p.name ++ ".ebuild".toList]

theorem IsSpelled.tab_not_mem (h : p.IsSpelled t) : '\t' ∉ t := by
  obtain ⟨folder, hcategory, hfolder, hname, rfl⟩ := h
  simp [Text.join_cons_cons, hcategory.tab, hfolder.tab, hname.tab]

theorem parse?_eq_some_iff (htab : '\t' ∉ t) : parse? t = some p ↔ p.IsSpelled t := by
  constructor
  · intro h
    unfold parse? at h
    split at h
    · next category folder file hsplit =>
      split at h
      · next name hname =>
        rw [Text.stripEnd?_eq_some_iff] at hname
        subst hname
        split at h
        · cases h
        · next hfilled =>
          cases h
          obtain ⟨rfl, hslash⟩ := (Text.splitOn_eq_iff (by simp)).mp hsplit
          simp only [Bool.or_eq_true, List.isEmpty_iff, not_or] at hfilled
          simp only [Text.join_cons_cons, Text.join_singleton, List.mem_append, not_or] at htab
          simp only [List.forall_mem_cons, List.mem_append, not_or] at hslash
          exact ⟨folder, ⟨hfilled.1.1, hslash.1, htab.1.1⟩, ⟨hfilled.1.2, hslash.2.1, htab.2.1.1⟩,
            ⟨hfilled.2, hslash.2.2.1.1, htab.2.2.1⟩, rfl⟩
      · cases h
    · cases h
  · rintro ⟨folder, hcategory, hfolder, hname, rfl⟩
    have hsplit : Text.splitOn '/' (Text.join ['/'] [p.category, folder, p.name ++ ".ebuild".toList]) =
        [p.category, folder, p.name ++ ".ebuild".toList] := by
      rw [Text.splitOn_eq_iff (by simp)]
      simp [hcategory.slash, hfolder.slash, hname.slash]
    have hstrip := Text.stripEnd?_eq_some_iff.mpr (rfl : p.name ++ ".ebuild".toList = _)
    unfold parse?
    simp only [hsplit, hstrip]
    simp [hcategory.filled, hfolder.filled, hname.filled]

/-- The place is one of a package version. -/
def Names (p : EbuildPath) (x : Cpv) : Prop := x.text = p.category ++ '/' :: p.name

theorem cpv?_eq_some_iff : p.cpv? = some x ↔ p.Names x := by
  rw [cpv?, Names, ← Cpv.parse_eq_ok_iff]
  cases Cpv.parse (p.category ++ '/' :: p.name) <;> simp [Except.toOption]

theorem cpv?_eq_none_iff : p.cpv? = none ↔ ∀ x, ¬ p.Names x := by
  simp [← cpv?_eq_some_iff, Option.eq_none_iff_forall_ne_some]

end EbuildPath

/-! ## File lines -/

namespace FileChange

variable {file : FileChange} {line s t digits : Text}

def status : FileChange → Status
  | added _ => .added
  | deleted _ => .deleted
  | modified _ => .modified
  | renamed _ _ _ => .renamed

/-- The place that is changed; of a rename, the new one. -/
def path : FileChange → EbuildPath
  | added p | deleted p | modified p => p
  | renamed _ _ q => q

/-- A letter and a path, or for renames a letter with a number and two paths, with tabs between. -/
inductive IsSpelled : FileChange → Text → Prop
  | single {file : FileChange} {t : Text} (hstatus : file.status ≠ .renamed) (h : file.path.IsSpelled t) :
      IsSpelled file (file.status.letter :: '\t' :: t)
  | renamed {digits s t : Text} {p q : EbuildPath} (hdigits : Text.isDigits digits = true)
      (hp : p.IsSpelled s) (hq : q.IsSpelled t) :
      IsSpelled (renamed (Text.digitsValue digits) p q) ('R' :: digits ++ '\t' :: s ++ '\t' :: t)

theorem splitOn_letter_iff {letter : Char} (hletter : '\t' ≠ letter) :
    line.splitOn '\t' = [[letter], t] ↔ line = letter :: '\t' :: t ∧ '\t' ∉ t := by
  rw [Text.splitOn_eq_iff (by simp)]
  simp [Text.join_cons_cons, hletter]

theorem splitOn_rename_iff :
    line.splitOn '\t' = ['R' :: digits, s, t] ↔ line = 'R' :: digits ++ '\t' :: s ++ '\t' :: t ∧
      '\t' ∉ digits ∧ '\t' ∉ s ∧ '\t' ∉ t := by
  rw [Text.splitOn_eq_iff (by simp)]
  simp [Text.join_cons_cons]

theorem parse?_eq_some_iff : parse? line = some file ↔ file.IsSpelled line := by
  constructor
  · intro h
    unfold parse? at h
    split at h
    case h_4 digits source target hsplit =>
      obtain ⟨rfl, -, hs, ht⟩ := splitOn_rename_iff.mp hsplit
      split at h
      · next hdigits =>
        split at h
        · next p q hp hq =>
          cases h
          exact .renamed hdigits ((EbuildPath.parse?_eq_some_iff hs).mp hp)
            ((EbuildPath.parse?_eq_some_iff ht).mp hq)
        · cases h
      · cases h
    case h_5 => cases h
    all_goals
      next path hsplit =>
        obtain ⟨p, hp, rfl⟩ := Option.map_eq_some_iff.mp h
        obtain ⟨rfl, htab⟩ := (splitOn_letter_iff (by decide)).mp hsplit
        exact .single nofun ((EbuildPath.parse?_eq_some_iff htab).mp hp)
  · intro h
    unfold parse?
    cases h with
    | @single _ t hstatus hp =>
      have hletter : ∀ s : Status, '\t' ≠ s.letter := by intro s; cases s <;> decide
      have hparse := (EbuildPath.parse?_eq_some_iff hp.tab_not_mem).mpr hp
      rw [(splitOn_letter_iff (hletter _)).mpr ⟨rfl, hp.tab_not_mem⟩]
      cases file with
      | renamed n p q => exact absurd rfl hstatus
      | _ => exact congrArg (Option.map _) hparse
    | renamed hdigits hp hq =>
      have htab := Version.Spelling.not_mem_digits hdigits (c := '\t') rfl
      simp only [splitOn_rename_iff.mpr ⟨rfl, htab, hp.tab_not_mem, hq.tab_not_mem⟩, hdigits,
        (EbuildPath.parse?_eq_some_iff hp.tab_not_mem).mpr hp,
        (EbuildPath.parse?_eq_some_iff hq.tab_not_mem).mpr hq, if_true]

end FileChange

/-! ## Changes of package versions -/

namespace Change

variable {isLocal : Bool} {commit : Commit} {index : Nat} {line : Text} {changes : List Change}
variable {file : FileChange} {cpv old new : Cpv} {n : Nat} {p q : EbuildPath}

/-- The changes that a file line stands for. -/
inductive Reports (isLocal : Bool) (commit : Commit) (index : Nat) (line : Text) : List Change → Prop
  /-- The file of a package version came, went or was modified. -/
  | single {file : FileChange} {cpv : Cpv} (hline : file.IsSpelled line) (hstatus : file.status ≠ .renamed)
      (hcpv : file.path.Names cpv) :
      Reports isLocal commit index line [⟨cpv, file.status, commit, index, none⟩]
  /-- A file became that of a package version; what it was before is published or no package version. -/
  | renamed {n : Nat} {p q : EbuildPath} {new : Cpv} (hline : (FileChange.renamed n p q).IsSpelled line)
      (hnew : q.Names new) (hold : isLocal = true → ∀ old, ¬ p.Names old) :
      Reports isLocal commit index line [⟨new, .renamed, commit, index, none⟩]
  /-- A local file of one package version became that of another. -/
  | linked {n : Nat} {p q : EbuildPath} {old new : Cpv} (hline : (FileChange.renamed n p q).IsSpelled line)
      (hnew : q.Names new) (hlocal : isLocal = true) (hold : p.Names old) :
      Reports isLocal commit index line [⟨new, .renamed, commit, index, none⟩,
        ⟨old, .renamed, commit, index,
          some [("oldAtom".toList, old.text), ("newAtom".toList, new.text)]⟩]
  /-- No package version is changed. -/
  | nothing (h : ∀ file : FileChange, file.IsSpelled line → ∀ cpv, ¬ file.path.Names cpv) :
      Reports isLocal commit index line []

theorem ofLine_of_isSpelled (h : file.IsSpelled line) :
    ofLine isLocal commit index line = ofFile isLocal commit index file := by
  rw [ofLine, FileChange.parse?_eq_some_iff.mpr h]

theorem ofFile_single (hstatus : file.status ≠ .renamed) (hcpv : file.path.Names cpv) :
    ofFile isLocal commit index file = [⟨cpv, file.status, commit, index, none⟩] := by
  rw [← EbuildPath.cpv?_eq_some_iff] at hcpv
  cases file with
  | renamed n p q => exact absurd rfl hstatus
  | _ => rw [FileChange.path] at hcpv; simp only [ofFile, hcpv]; rfl

theorem ofFile_nothing (hcpv : ∀ cpv, ¬ file.path.Names cpv) : ofFile isLocal commit index file = [] := by
  rw [← EbuildPath.cpv?_eq_none_iff] at hcpv
  cases file <;> (rw [FileChange.path] at hcpv; simp only [ofFile, hcpv])

theorem ofFile_renamed (hnew : q.Names new) (hold : isLocal = true → ∀ old, ¬ p.Names old) :
    ofFile isLocal commit index (.renamed n p q) = [⟨new, .renamed, commit, index, none⟩] := by
  have hunlinked : (if isLocal = true then p.cpv? else none) = none := by
    split
    · next hlocal => exact EbuildPath.cpv?_eq_none_iff.mpr (hold hlocal)
    · rfl
  simp only [ofFile, EbuildPath.cpv?_eq_some_iff.mpr hnew, hunlinked]

theorem ofFile_linked (hnew : q.Names new) (hold : p.Names old) :
    ofFile true commit index (.renamed n p q) = [⟨new, .renamed, commit, index, none⟩,
      ⟨old, .renamed, commit, index, some (renameLink old new)⟩] := by
  simp only [ofFile, EbuildPath.cpv?_eq_some_iff.mpr hnew, EbuildPath.cpv?_eq_some_iff.mpr hold, if_true]

theorem ofLine_of_reports (h : Reports isLocal commit index line changes) :
    ofLine isLocal commit index line = changes := by
  cases h with
  | single hline hstatus hcpv => rw [ofLine_of_isSpelled hline, ofFile_single hstatus hcpv]
  | renamed hline hnew hold => rw [ofLine_of_isSpelled hline, ofFile_renamed hnew hold]
  | linked hline hnew hlocal hold =>
    subst hlocal
    rw [ofLine_of_isSpelled hline, ofFile_linked hnew hold]
    rfl
  | nothing h =>
    cases hparse : FileChange.parse? line with
    | none => rw [ofLine, hparse]
    | some file =>
      have hline := FileChange.parse?_eq_some_iff.mp hparse
      rw [ofLine_of_isSpelled hline, ofFile_nothing (h file hline)]

theorem exists_reports (isLocal : Bool) (commit : Commit) (index : Nat) (line : Text) :
    ∃ changes, Reports isLocal commit index line changes := by
  by_cases hnone : ∀ file : FileChange, file.IsSpelled line → ∀ cpv, ¬ file.path.Names cpv
  · exact ⟨_, .nothing hnone⟩
  simp only [not_forall, not_not] at hnone
  obtain ⟨file, hline, cpv, hcpv⟩ := hnone
  by_cases hstatus : file.status = .renamed
  · cases file with
    | renamed n p q =>
      by_cases hlinked : isLocal = true ∧ ∃ old, p.Names old
      · obtain ⟨hlocal, old, hold⟩ := hlinked
        exact ⟨_, .linked hline hcpv hlocal hold⟩
      · exact ⟨_, .renamed hline hcpv fun hlocal old hold => hlinked ⟨hlocal, old, hold⟩⟩
    | _ => cases hstatus
  · exact ⟨_, .single hline hstatus hcpv⟩

theorem reports_iff : Reports isLocal commit index line changes ↔
    ofLine isLocal commit index line = changes := by
  refine ⟨ofLine_of_reports, ?_⟩
  rintro rfl
  obtain ⟨changes, h⟩ := exists_reports isLocal commit index line
  rwa [ofLine_of_reports h]

/-- A line tells of the same whatever its commit and the place of that are. -/
theorem ofLine_restamped (isLocal : Bool) (line : Text) (commit commit' : Commit) (index index' : Nat) :
    ofLine isLocal commit' index' line =
      (ofLine isLocal commit index line).map fun x => { x with commit := commit', index := index' } := by
  obtain ⟨changes, h⟩ := exists_reports isLocal commit index line
  rw [ofLine_of_reports h]
  cases h with
  | single hline hstatus hcpv => exact ofLine_of_reports (.single hline hstatus hcpv)
  | renamed hline hnew hold => exact ofLine_of_reports (.renamed hline hnew hold)
  | linked hline hnew hlocal hold => exact ofLine_of_reports (.linked hline hnew hlocal hold)
  | nothing h => exact ofLine_of_reports (.nothing h)

theorem of_mem_ofLine {x : Change} (h : x ∈ ofLine isLocal commit index line) :
    x.commit = commit ∧ x.index = index := by
  rw [ofLine_restamped isLocal line commit commit index index] at h
  obtain ⟨y, -, rfl⟩ := List.mem_map.mp h
  exact ⟨rfl, rfl⟩

/-! ## Commits -/

theorem of_mem_ofEntry {x : Change} {e : LogEntry} (h : x ∈ ofEntry isLocal e) :
    x.commit = e.commit ∧ x.index = e.index := by
  obtain ⟨line, -, hline⟩ := List.mem_flatMap.mp h
  exact of_mem_ofLine hline

/-- Local commits tell, besides what published ones do, only of the old sides of renames. -/
theorem filter_ofLine (commit : Commit) (index : Nat) (line : Text) :
    (ofLine true commit index line).filter (fun x => x.extra.isNone) =
      ofLine false commit index line := by
  obtain ⟨changes, h⟩ := exists_reports true commit index line
  rw [ofLine_of_reports h, eq_comm]
  cases h with
  | single hline hstatus hcpv => exact ofLine_of_reports (.single hline hstatus hcpv)
  | renamed hline hnew hold => exact ofLine_of_reports (.renamed hline hnew nofun)
  | linked hline hnew hlocal hold => exact ofLine_of_reports (.renamed hline hnew nofun)
  | nothing h => exact ofLine_of_reports (.nothing h)

theorem forall₂_reports_iff {lines : List Text} {pieces : List (List Change)} :
    List.Forall₂ (Reports isLocal commit index) lines pieces ↔
      lines.map (ofLine isLocal commit index) = pieces := by
  have hrule : Reports isLocal commit index = fun line piece => ofLine isLocal commit index line = piece := by
    funext line piece
    exact propext reports_iff
  calc List.Forall₂ (Reports isLocal commit index) lines pieces
      ↔ List.Forall₂ (fun line piece => ofLine isLocal commit index line = piece) lines pieces := by rw [hrule]
    _ ↔ List.Forall₂ Eq (lines.map (ofLine isLocal commit index)) pieces :=
        List.forall₂_map_left_iff.symm
    _ ↔ lines.map (ofLine isLocal commit index) = pieces := by rw [List.forall₂_eq_eq_eq]

theorem ofEntry_eq_iff {e : LogEntry} : ofEntry isLocal e = changes ↔
    ∃ pieces, List.Forall₂ (Reports isLocal e.commit e.index) e.fileLines pieces ∧
      changes = pieces.flatten := by
  simp only [forall₂_reports_iff, exists_eq_left', ofEntry, List.flatMap_def]
  exact eq_comm

/-- File lines are read as their grammar has it, the changes of a commit are those that its file lines stand for,
in their order, and links are all that local commits have more than published ones. -/
theorem file_lines_by_grammar :
    (∀ line file, FileChange.parse? line = some file ↔ file.IsSpelled line) ∧
    (∀ isLocal (e : LogEntry) changes, ofEntry isLocal e = changes ↔
      ∃ pieces, List.Forall₂ (Reports isLocal e.commit e.index) e.fileLines pieces ∧
        changes = pieces.flatten) ∧
    (∀ e : LogEntry, (ofEntry true e).filter (fun x => x.extra.isNone) = ofEntry false e) := by
  refine ⟨fun line file => FileChange.parse?_eq_some_iff, fun isLocal e changes => ofEntry_eq_iff, ?_⟩
  intro e
  simp only [ofEntry, List.filter_flatMap, filter_ofLine]

/-- The name of a file may itself end like that of an ebuild. -/
example : FileChange.parse? "D\tdev-libs/foo/foo-1.ebuild.ebuild".toList =
    some (.deleted ⟨"dev-libs".toList, "foo-1.ebuild".toList⟩) := by decide +kernel

end Change

end PackageHistory
