import Classlet.Module.Location
import Classlet.Proofs.Path.Walk

/-! # Canonical paths

`Location.canonical` puts the extension of source files on a path and normalizes it.  What it does
to the last step decides whether doing it again changes anything: the name that a path ends in gets
an extension, which is found there the second time, but a path that ends in no name gets a name that
is nothing but a dot and an extension, and such a name has no extension (`canonical_canonical`). -/

namespace Classlet

namespace Path

variable {p q : Path} {name : String}

theorem isEntry_of_fileName? (h : p.fileName? = some name) : IsEntry name :=
  isEntry_of_mem_components (List.mem_of_getLast? (fileName?_eq_some.mp h))

/-- A path whose last step is a name has a normal form that ends in the name. -/
theorem fileName?_normalize (h : p.fileName? = some name) : p.normalize.fileName? = some name := by
  obtain ⟨front, hfront⟩ := List.getLast?_eq_some_iff.mp (fileName?_eq_some.mp h)
  rw [fileName?_eq_some, components_normalize, normalSteps_eq, destination, hfront,
    List.foldl_append, List.getLast?_reverse]
  rfl

theorem fileName?_setFileName (p : Path) (hname : IsEntry name) :
    (p.setFileName name).fileName? = some name := by
  rw [fileName?_eq_some, components_setFileName p hname, List.getLast?_concat]

theorem extension?_congr (h : p.fileName? = q.fileName?) : p.extension? = q.extension? := by
  unfold extension?
  rw [h]

end Path

namespace Location

variable {p : Path} {name : String}

/-- A name with the extension of source files behind it. -/
def extended (name : String) : String := name ++ "." ++ fileExtension

theorem toList_extended (name : String) :
    (extended name).toList = name.toList ++ ['.', 'c', 'r', 'v'] := by
  rw [extended, String.toList_append, String.toList_append, List.append_assoc]
  rfl

theorem isEntry_extended (h : '/' ∉ name.toList) : Path.IsEntry (extended name) := by
  have hlength : 4 ≤ (extended name).toList.length := by
    rw [toList_extended, List.length_append]
    exact Nat.le_add_left 4 _
  refine ⟨?_, ?_, ?_⟩
  · rw [toList_extended, List.mem_append, not_or]
    exact ⟨h, by decide⟩
  · have hempty : (extended name).toList ≠ [] := fun h => absurd hlength (by rw [h]; decide)
    have hdot : (extended name).toList ≠ ['.'] := fun h => absurd hlength (by rw [h]; decide)
    simp [Path.isSkipped, hempty, hdot]
  · exact fun h => absurd hlength (by rw [h]; decide)

theorem splitAtDot_extended (h : name ≠ "") :
    Path.splitAtDot (extended name) = (some name, some fileExtension) := by
  have hname : name.toList.reverse ≠ [] := by simpa using h
  obtain ⟨c, cs, hcs⟩ := List.exists_cons_of_ne_nil hname
  have hreverse : (extended name).toList.reverse = ['v', 'r', 'c', '.'] ++ name.toList.reverse := by
    rw [toList_extended, List.reverse_append]
    rfl
  have hback : String.ofList (c :: cs).reverse = name := by
    rw [← hcs, List.reverse_reverse, String.ofList_toList]
  rw [Path.splitAtDot, hreverse, hcs, ← hback]
  rfl

/-- A name is found to have the extension that was put on it. -/
theorem extension?_of_extended (h : p.fileName? = some (extended name)) (hname : name ≠ "") :
    p.extension? = some fileExtension := by
  rw [Path.extension?, h, Option.bind_some, splitAtDot_extended hname]

theorem extension?_of_extended_empty (h : p.fileName? = some (extended "")) :
    p.extension? = none := by
  rw [Path.extension?, h]
  rfl

theorem withExtension_of_extension? (h : p.extension? = some fileExtension) :
    withExtension p = p :=
  if_pos h

theorem withExtension_of_ne (h : p.extension? ≠ some fileExtension) :
    withExtension p = p.setFileName (extended (p.fileName?.getD "")) :=
  if_neg h

theorem fileName?_withExtension_of_ne (h : p.extension? ≠ some fileExtension) :
    (withExtension p).fileName? = some (extended (p.fileName?.getD "")) := by
  rw [withExtension_of_ne h]
  refine Path.fileName?_setFileName p (isEntry_extended ?_)
  cases hname : p.fileName? with
  | none => decide
  | some name => exact (Path.isEntry_of_fileName? hname).slash

theorem extension?_of_fileName?_eq_none (h : p.fileName? = none) : p.extension? = none := by
  rw [Path.extension?, h]
  rfl

/-- A path that ends in a name has the extension when it has been put on. -/
theorem extension?_withExtension (h : p.fileName?.isSome) :
    (withExtension p).extension? = some fileExtension := by
  by_cases hext : p.extension? = some fileExtension
  · rwa [withExtension_of_extension? hext]
  · obtain ⟨name, hname⟩ := Option.isSome_iff_exists.mp h
    have hfile := fileName?_withExtension_of_ne hext
    rw [hname, Option.getD_some] at hfile
    refine extension?_of_extended hfile fun hempty => ?_
    -- the empty name is no step
    have hskip := (Path.isEntry_of_fileName? hname).skipped
    rw [hempty] at hskip
    cases hskip

/-- Every path ends in a name when the extension has been put on. -/
theorem fileName?_withExtension_isSome (p : Path) : (withExtension p).fileName?.isSome := by
  by_cases hext : p.extension? = some fileExtension
  · rw [withExtension_of_extension? hext]
    cases hname : p.fileName? with
    | none => rw [extension?_of_fileName?_eq_none hname] at hext; cases hext
    | some name => rfl
  · rw [fileName?_withExtension_of_ne hext]
    rfl

theorem fileName?_canonical (p : Path) : (canonical p).fileName? = (withExtension p).fileName? := by
  obtain ⟨name, hname⟩ := Option.isSome_iff_exists.mp (fileName?_withExtension_isSome p)
  rw [hname]
  exact Path.fileName?_normalize hname

theorem canonical_of_extension? (h : (canonical p).extension? = some fileExtension) :
    canonical (canonical p) = canonical p := by
  rw [canonical, withExtension_of_extension? h, canonical]
  exact Path.normalize_eq_iff_destination.mpr (Path.destination_normalize _)

theorem canonical_of_fileName? (h : p.fileName?.isSome) : canonical (canonical p) = canonical p :=
  canonical_of_extension?
    ((Path.extension?_congr (fileName?_canonical p)).trans (extension?_withExtension h))

/-- A path that ends in no name gets a name, and with it another name the second time. -/
theorem not_same_of_fileName?_eq_none (h : p.fileName? = none) :
    ¬ (canonical (canonical p)).Same (canonical p) := by
  intro hsame
  have hext : p.extension? ≠ some fileExtension := by
    rw [extension?_of_fileName?_eq_none h]
    exact nofun
  have hfirst : (canonical p).fileName? = some (extended "") := by
    rw [fileName?_canonical, fileName?_withExtension_of_ne hext, h]
    rfl
  have hsecond : (canonical (canonical p)).fileName? = some (extended (extended "")) := by
    rw [fileName?_canonical, fileName?_withExtension_of_ne, hfirst]
    · rfl
    · rw [extension?_of_extended_empty hfirst]
      exact nofun
  have hname : (canonical (canonical p)).fileName? = (canonical p).fileName? := by
    unfold Path.fileName?
    rw [show (canonical (canonical p)).components = (canonical p).components from hsame]
  rw [hfirst, hsecond] at hname
  exact absurd hname (by decide)

/-- A canonical path is its own canonical path exactly if it was found for a path that ends in a
name.  The empty path, the root, `.` and the paths that end in `..` have a canonical path with
another one behind it, and that one is its own. -/
theorem canonical_canonical (p : Path) :
    (canonical (canonical p) = canonical p ↔ p.fileName?.isSome) ∧
    ((canonical (canonical p)).Same (canonical p) ↔ p.fileName?.isSome) ∧
    canonical (canonical (canonical p)) = canonical (canonical p) := by
  have hsome : (canonical (canonical p)).Same (canonical p) → p.fileName?.isSome := by
    intro hsame
    cases hname : p.fileName? with
    | none => exact absurd hsame (not_same_of_fileName?_eq_none hname)
    | some name => rfl
  refine ⟨⟨fun h => hsome (congrArg Path.components h), canonical_of_fileName?⟩,
    ⟨hsome, fun h => congrArg Path.components (canonical_of_fileName? h)⟩, ?_⟩
  refine canonical_of_fileName? ?_
  rw [fileName?_canonical]
  exact fileName?_withExtension_isSome p

/-- The module that the empty path names is known by another path than the one it is asked for. -/
theorem canonical_canonical_empty :
    canonical ⟨""⟩ = ⟨".crv"⟩ ∧ canonical ⟨".crv"⟩ = ⟨".crv.crv"⟩ ∧
    canonical (canonical ⟨""⟩) ≠ canonical ⟨""⟩ := by
  decide +kernel

end Location

end Classlet
