import Kiln.Proofs.Path.Normal
import Mathlib.Logic.Relation

/-!
# Kiln.Proofs.Path.Fold — absolute paths as a canonical form

`Folds` takes something out of the pieces of a path that does not count: an empty piece, a `.`, a name
together with the `..` behind it, or a `..` at the root.  In whatever order this is done, the same
names are left when nothing more can be taken out (`foldsTo_iff`), and an absolute path is these names
(`absolute_canonical`).  Reading a path against a directory adds its steps to those of the directory
(`steps_join`), so folding commutes with it.
-/

namespace Kiln.Path

open Kiln.Text

/-- The pieces of a path between its separators, empty ones included. -/
abbrev pieces (path : String) : List String := Pieces.splitString isSeparator path

/-- What the pieces of a path stand for. -/
def steps (path : String) : List Component := (pieces path).filterMap Component.ofPiece?

/-- The names that lead from the root to where a path leads, once it is folded. -/
def names (path : String) : List String := (foldNames [] (steps path)).reverse

/-! ## Pieces -/

theorem pieces_append (a b : String) : pieces (a ++ "/" ++ b) = pieces a ++ pieces b := by
  unfold pieces Pieces.splitString
  rw [String.toList_append, String.toList_append, List.append_assoc]
  show List.map _ (Pieces.split _ (a.toList ++ '/' :: b.toList)) = _
  rw [Pieces.split_append _ _ (by rfl), List.map_append]

theorem plain_of_mem_pieces {path piece : String} (h : piece ∈ pieces path) :
    ∀ c ∈ piece.toList, isSeparator c = false := by
  obtain ⟨cs, hcs, rfl⟩ := List.mem_map.mp h
  rw [String.toList_ofList]
  exact Pieces.plain_of_mem_split hcs

theorem ofPiece?_of_ne {piece : String} (hempty : piece ≠ "") (hhere : piece ≠ ".")
    (hup : piece ≠ "..") : Component.ofPiece? piece = some (.name piece) := by
  unfold Component.ofPiece?
  split
  · exact absurd rfl hempty
  · exact absurd rfl hhere
  · exact absurd rfl hup
  · rfl

theorem IsName.ofPiece? {name : String} (h : IsName name) :
    Component.ofPiece? name = some (.name name) :=
  ofPiece?_of_ne h.ne_empty h.ne_here h.ne_up

/-- Texts without separators are the pieces of what they are put together to. -/
theorem pieces_join {ts : List String} (hne : ts ≠ [])
    (h : ∀ t ∈ ts, ∀ c ∈ t.toList, isSeparator c = false) : pieces (Pieces.join "/" ts) = ts := by
  induction ts with
  | nil => exact absurd rfl hne
  | cons first rest ih =>
    obtain ⟨hfirst, hrest⟩ := List.forall_mem_cons.mp h
    have hone : pieces first = [first] := by
      unfold pieces Pieces.splitString
      rw [Pieces.split_of_not hfirst]
      simp
    cases rest with
    | nil => exact hone
    | cons second rest =>
      show pieces (first ++ "/" ++ Pieces.join "/" (second :: rest)) = _
      rw [pieces_append, hone, ih (by simp) hrest]
      rfl

/-! ## Steps -/

theorem steps_append (a b : String) : steps (a ++ "/" ++ b) = steps a ++ steps b := by
  rw [steps, pieces_append, List.filterMap_append]
  rfl

@[simp] theorem steps_empty : steps "" = [] := by decide

theorem steps_slash (path : String) : steps ("/" ++ path) = steps path := by
  have h := steps_append "" path
  rwa [String.empty_append, steps_empty, List.nil_append] at h

theorem steps_join_texts {ts : List String} (h : ∀ t ∈ ts, ∀ c ∈ t.toList, isSeparator c = false) :
    steps (Pieces.join "/" ts) = ts.filterMap Component.ofPiece? := by
  cases ts with
  | nil => exact steps_empty
  | cons first rest => rw [steps, pieces_join (by simp) h]

theorem filterMap_names {ns : List String} (h : ∀ name ∈ ns, IsName name) :
    ns.filterMap Component.ofPiece? = ns.map .name := by
  induction ns with
  | nil => rfl
  | cons first rest ih =>
    obtain ⟨hfirst, hrest⟩ := List.forall_mem_cons.mp h
    rw [List.filterMap_cons, hfirst.ofPiece?, List.map_cons, ← ih hrest]

theorem steps_join_names {ns : List String} (h : ∀ name ∈ ns, IsName name) :
    steps (Pieces.join "/" ns) = ns.map .name := by
  rw [steps_join_texts fun name hname => (h name hname).plain, filterMap_names h]

/-- A separator at the end is no step. -/
theorem steps_trailing (path : String) : steps (path ++ "/") = steps path := by
  have h := steps_append path ""
  rwa [String.append_empty, steps_empty, List.append_nil] at h

theorem exists_of_trailing {path : String} (h : path.toList.getLast? = some separator) :
    ∃ front, path = front ++ "/" := by
  obtain ⟨front, hfront⟩ := List.getLast?_eq_some_iff.mp h
  refine ⟨String.ofList front, String.toList_injective ?_⟩
  rw [hfront, String.toList_append, String.toList_ofList]
  rfl

/-- A path that goes on behind a separator goes on from the steps before it. -/
theorem steps_prefix {path : String} {tail : List Char}
    (h : path.toList.getLast? = some separator ∨ tail.head? = some separator) :
    steps path <+: steps (path ++ String.ofList tail) := by
  rcases h with hend | hstart
  · obtain ⟨front, rfl⟩ := exists_of_trailing hend
    rw [steps_trailing, steps_append]
    exact List.prefix_append _ _
  · obtain ⟨rest, rfl⟩ := List.head?_eq_some_iff.mp hstart
    have hsplit : path ++ String.ofList (separator :: rest) = path ++ "/" ++ String.ofList rest :=
      String.toList_injective (by simp [separator])
    rw [hsplit, steps_append]
    exact List.prefix_append _ _

/-- Against a directory, a relative path goes on from the steps of the directory. -/
theorem steps_join (base : String) {path : String} (h : isAbsolute path = false) :
    steps (join base path) = steps base ++ steps path := by
  rw [join, if_neg (by simp [h])]
  by_cases hempty : base = ""
  · rw [if_pos hempty, hempty, steps_empty, List.nil_append]
  rw [if_neg hempty]
  by_cases hend : base.toList.getLast? = some separator
  · rw [if_pos hend]
    obtain ⟨front, rfl⟩ := exists_of_trailing hend
    rw [steps_append, steps_trailing]
  · rw [if_neg hend, steps_append]

theorem isAbsolute_append {path : String} (h : path ≠ "") (more : String) :
    isAbsolute (path ++ more) = isAbsolute path := by
  obtain ⟨c, cs, hcs⟩ := List.exists_cons_of_ne_nil (mt String.toList_eq_nil_iff.mp h)
  simp [isAbsolute, hcs]

/-- Where a path starts is not changed by what it goes on with. -/
theorem isAbsolute_join_relative (base : String) {path : String} (h : isAbsolute path = false) :
    isAbsolute (join base path) = isAbsolute base := by
  rw [join, if_neg (by simp [h])]
  by_cases hempty : base = ""
  · rw [if_pos hempty, hempty, h]
    decide
  · rw [if_neg hempty]
    split
    · exact isAbsolute_append hempty path
    · rw [String.append_assoc]
      exact isAbsolute_append hempty _

theorem IsName.not_isAbsolute {name : String} (h : IsName name) : isAbsolute name = false := by
  rw [← Bool.not_eq_true]
  intro habsolute
  obtain ⟨cs, hcs⟩ := List.head?_eq_some_iff.mp (by simpa [isAbsolute] using habsolute)
  have hplain := h.plain separator (by simp [hcs])
  simp [isSeparator] at hplain

theorem IsName.steps {name : String} (h : IsName name) : steps name = [.name name] := by
  have hone : ∀ n ∈ [name], IsName n := by simpa using h
  exact steps_join_names hone

/-- Texts with nothing before their first separator but a name or a `..` are no absolute path. -/
theorem isAbsolute_join_texts {ts : List String}
    (h : ∀ t ∈ ts, t ≠ "" ∧ ∀ c ∈ t.toList, isSeparator c = false) :
    isAbsolute (Pieces.join "/" ts) = false := by
  cases ts with
  | nil => decide
  | cons first rest =>
    obtain ⟨hne, hplain⟩ := h first List.mem_cons_self
    obtain ⟨c, cs, hcs⟩ := List.exists_cons_of_ne_nil (mt String.toList_eq_nil_iff.mp hne)
    have hc : c ≠ separator := by simpa [isSeparator] using hplain c (by simp [hcs])
    cases rest with
    | nil => simp [Pieces.join, isAbsolute, hcs, hc]
    | cons second rest => simp [Pieces.join, isAbsolute, hcs, hc]

/-- There is only one kind of separator. -/
@[simp] theorem native_eq (path : String) : native path = path := by
  have hsame : ∀ c, (if isSeparator c then separator else c) = c := by
    intro c
    split
    · rename_i hc
      exact (beq_iff_eq.mp hc).symm
    · rfl
  simp [native, hsame]

theorem join_of_isAbsolute (base : String) {path : String} (h : isAbsolute path = true) :
    join base path = path := by
  rw [join, if_pos h]

/-! ## Folding -/

theorem foldNames_append (stack : List String) (a b : List Component) :
    foldNames stack (a ++ b) = foldNames (foldNames stack a) b := by
  induction a generalizing stack with
  | nil => rfl
  | cons c a ih => cases c <;> exact ih _

theorem foldNames_names (stack ns : List String) :
    foldNames stack (ns.map .name) = ns.reverse ++ stack := by
  induction ns generalizing stack with
  | nil => rfl
  | cons name ns ih => simp [foldNames, ih]

theorem foldNames_filter (stack : List String) (cs : List Component) :
    foldNames stack (cs.filter (· ≠ .here)) = foldNames stack cs := by
  induction cs generalizing stack with
  | nil => rfl
  | cons c cs ih =>
    cases c with
    | here => exact ih stack
    | root | up | name => exact ih _

/-- The components of a path fold as its steps do: `.` and the root count for nothing. -/
theorem foldNames_components (stack : List String) (path : String) :
    foldNames stack (components path) = foldNames stack (steps path) := by
  unfold components
  split
  · exact foldNames_filter stack _
  · dsimp only
    split
    · rename_i rest hpieces
      rw [steps, hpieces]
      exact foldNames_filter stack rest
    · exact foldNames_filter stack _

theorem fold_eq {path : String} (h : isAbsolute path = true) :
    fold path = "/" ++ Pieces.join "/" (names path) := by
  simp [fold, h, foldNames_components, names]

theorem isName_of_names {path : String} : ∀ name ∈ names path, IsName name := by
  intro name hname
  rw [names, ← foldNames_components] at hname
  exact isName_of_foldNames (by simp) (fun _ => isName_of_component) name (List.mem_reverse.mp hname)

/-- Names that are put together lead where they did. -/
theorem names_of_names {ns : List String} (h : ∀ name ∈ ns, IsName name) :
    names ("/" ++ Pieces.join "/" ns) = ns := by
  rw [names, steps_slash, steps_join_names h, foldNames_names]
  simp

/-- The names of a path against a directory go on from those of the directory. -/
theorem names_join (base : String) {path : String} (h : isAbsolute path = false) :
    names (join base path) = (foldNames (names base).reverse (steps path)).reverse := by
  rw [names, steps_join base h, foldNames_append, names, List.reverse_reverse]

theorem absolute_eq {base : String} (h : isAbsolute base = true) (path : String) :
    absolute base path = "/" ++ Pieces.join "/" (names (join base path)) :=
  fold_eq (isAbsolute_join path h)

theorem names_absolute {base : String} (h : isAbsolute base = true) (path : String) :
    names (absolute base path) = names (join base path) := by
  rw [absolute_eq h, names_of_names isName_of_names]

/-- An absolute path with nothing to fold is its own absolute form, against any directory. -/
theorem Normal.absolute_self {path : String} (h : Normal path) (base : String) :
    Path.absolute base path = path := by
  have habsolute := h.isAbsolute
  obtain ⟨ns, hns, hpath⟩ := h
  rw [Path.absolute, join_of_isAbsolute base habsolute, fold_eq habsolute, hpath,
    names_of_names hns]

/-! ## The order in which pieces are taken out -/

/-- One thing that does not count is taken out of the pieces of a path. -/
inductive Folds : List String → List String → Prop
  | empty (a b : List String) : Folds (a ++ "" :: b) (a ++ b)
  | here (a b : List String) : Folds (a ++ "." :: b) (a ++ b)
  | up {name : String} (a b : List String) : IsName name → Folds (a ++ name :: ".." :: b) (a ++ b)
  | top (b : List String) : Folds (".." :: b) b

/-- The names are what is left of the pieces of a path when all that does not count is taken out. -/
def FoldsTo (ps ns : List String) : Prop :=
  Relation.ReflTransGen Folds ps ns ∧ ∀ name ∈ ns, IsName name

/-- Taking something out does not change what the pieces fold to. -/
theorem Folds.foldNames_eq {ps qs : List String} (h : Folds ps qs) :
    foldNames [] (ps.filterMap Component.ofPiece?) =
      foldNames [] (qs.filterMap Component.ofPiece?) := by
  cases h with
  | empty a b => simp [foldNames_append, Component.ofPiece?]
  | here a b => simp [foldNames_append, Component.ofPiece?, foldNames]
  | up a b hname =>
    have hup : Component.ofPiece? ".." = some .up := rfl
    simp [foldNames_append, hname.ofPiece?, hup, foldNames]
  | top b => rfl

theorem foldNames_eq_of_folds {ps qs : List String} (h : Relation.ReflTransGen Folds ps qs) :
    foldNames [] (ps.filterMap Component.ofPiece?) =
      foldNames [] (qs.filterMap Component.ofPiece?) := by
  induction h with
  | refl => rfl
  | tail _ hstep ih => exact ih.trans hstep.foldNames_eq

/-- Pieces behind names are taken out one after the other, as a stack of names says. -/
theorem folds_of_stack {stack ps : List String} (hstack : ∀ name ∈ stack, IsName name)
    (hps : ∀ piece ∈ ps, ∀ c ∈ piece.toList, isSeparator c = false) :
    Relation.ReflTransGen Folds (stack.reverse ++ ps)
      (foldNames stack (ps.filterMap Component.ofPiece?)).reverse := by
  induction ps generalizing stack with
  | nil =>
    rw [List.append_nil]
    exact .refl
  | cons piece ps ih =>
    obtain ⟨hpiece, hrest⟩ := List.forall_mem_cons.mp hps
    by_cases hempty : piece = ""
    · subst hempty
      exact .head (.empty stack.reverse ps) (ih hstack hrest)
    by_cases hhere : piece = "."
    · subst hhere
      exact .head (.here stack.reverse ps) (ih hstack hrest)
    by_cases hup : piece = ".."
    · subst hup
      cases stack with
      | nil =>
        have hnext := ih hstack hrest
        exact .head (.top ps) hnext
      | cons name stack =>
        obtain ⟨hname, hbelow⟩ := List.forall_mem_cons.mp hstack
        have hstep := Folds.up stack.reverse ps hname
        rw [List.reverse_cons, List.append_assoc]
        exact .head hstep (ih hbelow hrest)
    · have hname : IsName piece := ⟨hempty, hhere, hup, hpiece⟩
      have hnames : ∀ name ∈ piece :: stack, IsName name :=
        List.forall_mem_cons.mpr ⟨hname, hstack⟩
      have hnext := ih hnames hrest
      rw [List.reverse_cons, List.append_assoc] at hnext
      rw [List.filterMap_cons, hname.ofPiece?]
      exact hnext

/-- In whatever order it is done, the same names are left. -/
theorem foldsTo_iff {path : String} {ns : List String} :
    FoldsTo (pieces path) ns ↔ ns = names path := by
  constructor
  · rintro ⟨hfolds, hns⟩
    have hsame := foldNames_eq_of_folds hfolds
    rw [filterMap_names hns, foldNames_names, List.append_nil] at hsame
    rw [names, steps, hsame, List.reverse_reverse]
  · rintro rfl
    refine ⟨?_, isName_of_names⟩
    have hnone : ∀ name ∈ ([] : List String), IsName name := by simp
    exact folds_of_stack hnone fun piece => plain_of_mem_pieces

/-! ## Absolute paths -/

/-- A path seen from a directory, in the words of both. -/
def seenFrom (base path : String) : String :=
  if isAbsolute path then path else base ++ "/" ++ path

theorem steps_seenFrom (base path : String) : steps (seenFrom base path) = steps (join base path) := by
  unfold seenFrom
  split
  · rename_i h
    rw [join_of_isAbsolute base h]
  · rename_i h
    rw [steps_append, steps_join base (by simpa using h)]

/-- The pieces of a normal path are its names, behind the empty one before the first separator. -/
theorem Normal.isName_of_piece {path : String} (h : Normal path) (hroot : path ≠ "/") :
    ∀ piece ∈ (pieces path).tail, IsName piece := by
  obtain ⟨ns, hns, rfl⟩ := h
  have hne : ns ≠ [] := by
    rintro rfl
    exact hroot rfl
  have hpieces := pieces_append "" (Pieces.join "/" ns)
  rw [String.empty_append, pieces_join hne fun name hname => (hns name hname).plain] at hpieces
  rw [hpieces]
  exact hns

theorem absolute_join {base : String} (h : isAbsolute base = true) {path more : String}
    (hpath : path ≠ "") (hmore : isAbsolute more = false) :
    absolute (absolute base path) more = absolute base (path ++ "/" ++ more) := by
  have hhead : isAbsolute (path ++ "/" ++ more) = isAbsolute path := by
    rw [String.append_assoc, isAbsolute_append hpath]
  have hsteps : steps (join base (path ++ "/" ++ more)) = steps (join base path) ++ steps more := by
    by_cases habsolute : isAbsolute path = true
    · rw [join_of_isAbsolute base habsolute, join_of_isAbsolute base (hhead.trans habsolute),
        steps_append]
    · rw [Bool.not_eq_true] at habsolute
      rw [steps_join base habsolute, steps_join base (hhead.trans habsolute), steps_append,
        List.append_assoc]
  have hnames : names (join (absolute base path) more) = names (join base (path ++ "/" ++ more)) := by
    rw [names_join _ hmore, names_absolute h, names, names, List.reverse_reverse, hsteps,
      foldNames_append]
  have hfirst : isAbsolute (absolute base path) = true :=
    (normal_fold (isAbsolute_join path h)).isAbsolute
  rw [absolute_eq hfirst more, absolute_eq h (path ++ "/" ++ more), hnames]

/-- Names go on from wherever a path leads. -/
theorem absolute_join_names {base : String} (h : isAbsolute base = true) (path : String)
    {ns : List String} (hns : ∀ name ∈ ns, IsName name) :
    absolute (absolute base path) (Pieces.join "/" ns) =
      "/" ++ Pieces.join "/" (names (absolute base path) ++ ns) := by
  have hfirst : isAbsolute (absolute base path) = true :=
    (normal_fold (isAbsolute_join path h)).isAbsolute
  have hmore : isAbsolute (Pieces.join "/" ns) = false :=
    isAbsolute_join_texts fun name hname => ⟨(hns name hname).ne_empty, (hns name hname).plain⟩
  rw [absolute_eq hfirst, names_join _ hmore, steps_join_names hns, foldNames_names]
  simp

/-- Against an absolute directory, every path comes to an absolute one whose pieces are all names: the
names that are left when the `..` of the path, seen from the directory, have taken out what stands
before them.  It is its own absolute form, and further paths may be read against it or be put behind
the path at once. -/
theorem absolute_canonical {cwd : String} (hcwd : isAbsolute cwd = true) (path : String) :
    let full := absolute cwd path
    isAbsolute full = true ∧
    (full ≠ "/" → (∀ piece ∈ (pieces full).tail, IsName piece) ∧
      full.toList.getLast? ≠ some separator) ∧
    (∀ ns, FoldsTo (pieces (seenFrom cwd path)) ns ↔
      (∀ name ∈ ns, IsName name) ∧ full = "/" ++ Pieces.join "/" ns) ∧
    (∀ base, absolute base full = full) ∧
    ∀ more, path ≠ "" → isAbsolute more = false →
      absolute full more = absolute cwd (path ++ "/" ++ more) := by
  intro full
  have hnormal : Normal full := normal_fold (isAbsolute_join path hcwd)
  have hnames : names (seenFrom cwd path) = names full := by
    rw [names_absolute hcwd, names, names, steps_seenFrom]
  refine ⟨hnormal.isAbsolute, fun hroot => ⟨hnormal.isName_of_piece hroot, hnormal.getLast?_ne hroot⟩,
    fun ns => ?_, hnormal.absolute_self, fun more => absolute_join hcwd⟩
  rw [foldsTo_iff, hnames]
  constructor
  · intro hns
    rw [hns, names_absolute hcwd]
    exact ⟨isName_of_names, absolute_eq hcwd path⟩
  · intro hns
    rw [hns.2, names_of_names hns.1]

/-- Dots of both kinds, doubled separators, and a way up beyond the root. -/
theorem absolute_canonical_beyond_root :
    isAbsolute "/work/./proj/" = true ∧ isAbsolute "../lib/./a.c" = false ∧
    absolute "/work/./proj/" "src//../../.." = "/" ∧
    absolute (absolute "/work/./proj/" "src//../../..") "../lib/./a.c" =
      absolute "/work/./proj/" "src//../../../../lib/./a.c" ∧
    FoldsTo (pieces "/work/./proj//src//../../../../lib/./a.c") ["lib", "a.c"] := by
  have hcwd : isAbsolute "/work/./proj/" = true := by decide
  have hroot : absolute "/work/./proj/" "src//../../.." = "/" := by decide +kernel
  have hlib : absolute "/work/./proj/" "src//../../../../lib/./a.c" = "/lib/a.c" := by decide +kernel
  obtain ⟨-, -, -, -, hjoin⟩ := absolute_canonical hcwd "src//../../.."
  obtain ⟨-, -, hfolds, -⟩ := absolute_canonical hcwd "src//../../../../lib/./a.c"
  have hmore : isAbsolute "../lib/./a.c" = false := by decide
  have hnames : ∀ name ∈ ["lib", "a.c"], IsName name := by decide
  exact ⟨hcwd, hmore, hroot, hjoin "../lib/./a.c" (by decide) hmore,
    (hfolds ["lib", "a.c"]).mpr ⟨hnames, hlib⟩⟩

end Kiln.Path
