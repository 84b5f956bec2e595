import Mathlib.Data.List.Basic
import SnapStore.Store

/-! # Paths of indexes

The path of an index joins two names by a point, and a name may contain points itself. So a
path does not always tell its table and index: the indexes `b.c` of a table `a` and `c` of a
table `a.b` have the same path. This is the only way in which paths can be the same.

Main statements: `Key.ofText_inj` (a text is told by its bytes) and `indexPath_eq_iff`.
-/

namespace SnapStore

/-- A text is told by its bytes. -/
theorem Key.ofText_inj {s s' : String} : Key.ofText s = Key.ofText s' ↔ s = s' := by
  refine ⟨fun h => ?_, fun h => h ▸ rfl⟩
  have hbytes : s.toList.utf8Encode = s'.toList.utf8Encode := congrArg List.toByteArray h
  rw [← String.toByteArray_ofList, ← String.toByteArray_ofList, String.toByteArray_inj,
    String.ofList_toList, String.ofList_toList] at hbytes
  exact hbytes

/-- A path is a text: both names with a point between them. -/
theorem indexPath_eq_ofText (table index : String) :
    indexPath table index = Key.ofText (table ++ "." ++ index) := by
  simp only [Key.ofText, String.toList_append, List.flatMap_append, List.append_assoc]
  rfl

/-- One of the tables is named by the other one and more names behind a point, by which the
index of the other one begins. -/
def Clash (table name table' name' : String) : Prop :=
  (∃ more, table' = table ++ "." ++ more ∧ name = more ++ "." ++ name') ∨
    ∃ more, table = table' ++ "." ++ more ∧ name' = more ++ "." ++ name

/-- Names of tables without points never clash. -/
theorem not_clash_of_no_point {table name table' name' : String} (h : '.' ∉ table.toList)
    (h' : '.' ∉ table'.toList) : ¬ Clash table name table' name' := by
  rintro (⟨more, rfl, _⟩ | ⟨more, rfl, _⟩)
  · simp at h'
  · simp at h

/-- Where one of two equal paths has the longer front, its front goes on with a point, and the
other path goes on with what is left of the front. -/
theorem clash_of_append {table name table' name' : String} {rest : List Char}
    (htable : table'.toList = table.toList ++ rest)
    (hname : '.' :: name.toList = rest ++ '.' :: name'.toList) :
    (table = table' ∧ name = name') ∨
      ∃ more, table' = table ++ "." ++ more ∧ name = more ++ "." ++ name' := by
  cases rest with
  | nil =>
    left
    have htables : table'.toList = table.toList := by simpa using htable
    have hnames : name.toList = name'.toList := by simpa using hname
    exact ⟨(String.toList_inj.1 htables).symm, String.toList_inj.1 hnames⟩
  | cons c more =>
    right
    have hparts : '.' = c ∧ name.toList = more ++ '.' :: name'.toList := by simpa using hname
    rcases hparts with ⟨rfl, hmore⟩
    refine ⟨String.ofList more, String.toList_inj.1 ?_, String.toList_inj.1 ?_⟩
    · simp [htable]
    · simp [hmore]

/-- Two indexes have the same path if they are the same, or if their names clash. -/
theorem indexPath_eq_iff {table name table' name' : String} :
    indexPath table name = indexPath table' name' ↔
      (table = table' ∧ name = name') ∨ Clash table name table' name' := by
  rw [indexPath_eq_ofText, indexPath_eq_ofText, Key.ofText_inj]
  constructor
  · intro h
    have hlist : table.toList ++ '.' :: name.toList = table'.toList ++ '.' :: name'.toList := by
      simpa using congrArg String.toList h
    rcases List.append_eq_append_iff.1 hlist with ⟨rest, htable, hname⟩ | ⟨rest, htable, hname⟩
    · rcases clash_of_append htable hname with hsame | hmore
      · exact .inl hsame
      · exact .inr (.inl hmore)
    · rcases clash_of_append htable hname with ⟨htables, hnames⟩ | hmore
      · exact .inl ⟨htables.symm, hnames.symm⟩
      · exact .inr (.inr hmore)
  · rintro (⟨rfl, rfl⟩ | ⟨more, rfl, rfl⟩ | ⟨more, rfl, rfl⟩)
    · rfl
    · simp [String.append_assoc]
    · simp [String.append_assoc]

end SnapStore
