import PackageHistory.Path
import PackageHistory.Proofs.Text

/-!
# The last name of a path

A text that ends in a name, with nothing or a slash before it, names a path whose last name that is; and so
do texts that are put together of parts, when the name is the last part.
-/

namespace PackageHistory

namespace Path

/-- A name that no step passes over. -/
structure IsName (t : Text) : Prop where
  slash : '/' ∉ t
  filled : t ≠ []
  dot : t ≠ dot
  dots : t ≠ dots

/-- What stands before the last name of a text. -/
def IsLead (t : Text) : Prop := t = [] ∨ ∃ s, t = s ++ ['/']

variable {name lead : Text}

theorem step_of_isName (h : IsName name) (p : Path) : step p name = p ++ [name] := by
  rw [step, if_neg (not_or.mpr ⟨h.filled, h.dot⟩), if_neg h.dots]

theorem stepText_of_isName (h : IsName name) (absolute : Bool) (p : List Text) :
    stepText absolute p name = p ++ [name] := by
  rw [stepText, if_neg (not_or.mpr ⟨h.filled, h.dot⟩), if_neg h.dots]

theorem splitOn_append (hlead : IsLead lead) (h : IsName name) :
    ∃ segments, (lead ++ name).splitOn '/' = segments ++ [name] := by
  rcases hlead with rfl | ⟨s, rfl⟩
  · exact ⟨[], Text.splitOn_of_not_mem h.slash⟩
  · refine ⟨s.splitOn '/', ?_⟩
    rw [List.append_assoc, List.singleton_append, Text.splitOn_append_sep,
      Text.splitOn_of_not_mem h.slash]

theorem getLast?_resolve (hlead : IsLead lead) (h : IsName name) (cwd : Path) :
    (resolve cwd (lead ++ name)).getLast? = some name := by
  obtain ⟨segments, hsegments⟩ := splitOn_append hlead h
  rw [resolve, hsegments, List.foldl_append, List.foldl_cons, List.foldl_nil, step_of_isName h,
    List.getLast?_concat]

theorem IsLead.append (hlead : IsLead lead) (t : Text) : IsLead (t ++ '/' :: lead) := by
  rcases hlead with rfl | ⟨s, rfl⟩
  · exact .inr ⟨t, rfl⟩
  · exact .inr ⟨t ++ '/' :: s, by simp⟩

theorem join_concat (pieces : List Text) (t : Text) :
    ∃ lead, IsLead lead ∧ Text.join ['/'] (pieces ++ [t]) = lead ++ t := by
  by_cases hnil : pieces = []
  · subst hnil
    exact ⟨[], .inl rfl, by simp⟩
  · refine ⟨Text.join ['/'] pieces ++ ['/'], .inr ⟨_, rfl⟩, ?_⟩
    rw [Text.join_append_join _ hnil (List.cons_ne_nil t []), Text.join_singleton]

theorem getLast?_append_of_isName (h : IsName name) (t : Text) :
    (t ++ name).getLast? ≠ some '/' := by
  intro hlast
  rw [List.getLast?_append] at hlast
  cases hname : name.getLast? with
  | none => exact h.filled (List.getLast?_eq_none_iff.mp hname)
  | some c =>
    rw [hname, Option.some_or, Option.some.injEq] at hlast
    exact h.slash (List.mem_of_getLast? (hlast ▸ hname))

theorem normalize_append (hlead : IsLead lead) (h : IsName name) :
    ∃ lead', IsLead lead' ∧ normalize (lead ++ name) = lead' ++ name := by
  obtain ⟨segments, hsegments⟩ := splitOn_append hlead h
  obtain ⟨body, hbody, hjoin⟩ :=
    join_concat (segments.foldl (stepText (isAbsolute (lead ++ name))) []) name
  have hfilled : body ++ name ≠ [] := fun hnil => h.filled (List.append_eq_nil_iff.mp hnil).2
  rw [normalize, hsegments, List.foldl_append, List.foldl_cons, List.foldl_nil,
    stepText_of_isName h, hjoin, if_neg (getLast?_append_of_isName h lead)]
  simp only [hfilled, if_false, List.append_nil]
  split
  · exact ⟨'/' :: body, hbody.append [], rfl⟩
  · exact ⟨body, hbody, rfl⟩

theorem join_append (parts : List Text) (h : IsName name) :
    ∃ lead, IsLead lead ∧ join (parts ++ [name]) = lead ++ name := by
  obtain ⟨lead, hlead, hjoin⟩ := join_concat (parts.filter fun part => !part.isEmpty) name
  have hfilled : [name].filter (fun part => !part.isEmpty) = [name] := by
    rw [List.filter_eq_self]
    simp [h.filled]
  rw [join, List.filter_append, hfilled, hjoin]
  exact normalize_append hlead h

end Path

end PackageHistory
