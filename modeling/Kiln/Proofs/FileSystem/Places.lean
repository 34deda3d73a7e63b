import Kiln.Proofs.FileSystem.Changes
import Kiln.Proofs.Path.Fold

/-!
# Kiln.Proofs.FileSystem.Places — what stands where, and where a path leads

`FileSystem.content` tells of every place whether a directory, a file or nothing is there.  A path has
a place as well, its `way`, which depends on its text alone: wherever the path leads, it leads there
(`way_of_locate`).  What is put at a place changes the content of this place and of no other
(`content_put_free`, `content_put_file`).
-/

namespace Kiln

namespace Node

/-- What a node is, its time apart. -/
inductive Content where
  | dir
  | file (data : ByteArray)

/-- The content of a node. -/
def content : Node → Content
  | file data _ => .file data
  | dir .. => .dir

theorem content_eq_dir {n : Node} : n.content = .dir ↔ n.isDir = true := by
  cases n <;> simp [content, isDir]

/-- The entries of a directory stand in the order of their names, and each name is the component of a
path. -/
inductive Valid : Node → Prop
  | file (data : ByteArray) (t : Int) : Valid (file data t)
  | dir {es : List (String × Node)} {t : Int} : es.Pairwise (fun a b => a.1 < b.1) →
      (∀ e ∈ es, Path.IsName e.1) → (∀ e ∈ es, Valid e.2) → Valid (dir es t)

theorem Valid.ordered {n : Node} (h : n.Valid) : n.entries.Pairwise fun a b => a.1 < b.1 := by
  cases h with
  | file => exact .nil
  | dir hordered => exact hordered

theorem Valid.isName {n : Node} (h : n.Valid) : ∀ e ∈ n.entries, Path.IsName e.1 := by
  cases h with
  | file => simp [entries]
  | dir _ hnames => exact hnames

theorem Valid.entry {n : Node} (h : n.Valid) : ∀ e ∈ n.entries, e.2.Valid := by
  cases h with
  | file => simp [entries]
  | dir _ _ hentries => exact hentries

theorem Valid.find {n child : Node} {name : String} (h : n.Valid)
    (hf : Table.find name n.entries = some child) : child.Valid :=
  h.entry _ ((Table.find_eq_some_iff h.ordered).mp hf)

theorem Valid.at? {n m : Node} {names : List String} (h : n.Valid) (hat : n.at? names = some m) :
    m.Valid := by
  induction names generalizing n with
  | nil =>
    cases hat
    exact h
  | cons name rest ih =>
    rw [at?_cons] at hat
    obtain ⟨child, hchild, hrest⟩ := Option.bind_eq_some_iff.mp hat
    exact ih (h.find hchild) hrest

theorem Valid.put {es : List (String × Node)} {t t' : Int} {new : Node} {name : String}
    (h : (Node.dir es t).Valid) (hname : Path.IsName name) (hnew : new.Valid) :
    (Node.dir (Table.put name new es) t').Valid := by
  refine .dir (Table.put_ordered name new h.ordered) (fun e he => ?_) fun e he => ?_
  · rcases Table.mem_put he with rfl | he
    · exact hname
    · exact h.isName e he
  · rcases Table.mem_put he with rfl | he
    · exact hnew
    · exact h.entry e he

theorem Valid.insert {root new : Node} (h : root.Valid) (hnew : new.Valid) (now : Int)
    {names : List String} (hnames : ∀ name ∈ names, Path.IsName name) :
    (insert now new names root).Valid := by
  induction names generalizing root with
  | nil => exact hnew
  | cons name rest ih =>
    obtain ⟨hname, hrest⟩ := List.forall_mem_cons.mp hnames
    cases root with
    | file data t =>
      rw [insert_file]
      exact h
    | dir es t =>
      by_cases hnil : rest = []
      · subst hnil
        exact h.put hname hnew
      · cases hf : Table.find name es with
        | none =>
          rw [insert_cons_of_none hnil hf]
          exact h
        | some child =>
          rw [insert_cons_of_find hnil hf]
          exact h.put hname (ih (h.find hf) hrest)

/-- Below a node without entries there is nothing. -/
theorem at?_of_no_entries {n : Node} (h : n.entries = []) (name : String) (rest : List String) :
    n.at? (name :: rest) = none := by
  rw [at?_cons, h]
  rfl

theorem entries_of_isDir_eq_false {n : Node} (h : n.isDir = false) : n.entries = [] := by
  cases n with
  | file => rfl
  | dir => simp [isDir] at h

theorem at?_dir_put (m : Node) (es : List (String × Node)) (t t' : Int) (k k' : String)
    (rest : List String) : (dir (Table.put k m es) t').at? (k' :: rest) =
      if k' = k then m.at? rest else (dir es t).at? (k' :: rest) := by
  rw [at?_dir_cons, at?_dir_cons]
  by_cases hk : k' = k
  · subst hk
    rw [Table.find_put_self, if_pos rfl, Option.bind_some]
  · rw [Table.find_put_of_ne _ hk, if_neg hk]

/-- Insertion goes on in the child of the first name, if there is one. -/
theorem insert_cons_into {now t : Int} {new child : Node} {k : String} (names : List String)
    {es : List (String × Node)} (h : Table.find k es = some child) :
    ∃ t', insert now new (k :: names) (dir es t) =
      dir (Table.put k (insert now new names child) es) t' := by
  by_cases hnil : names = []
  · subst hnil
    exact ⟨_, rfl⟩
  · exact ⟨t, insert_cons_of_find hnil h⟩

/-- A file or an empty directory that is put into a directory, at most in place of a file, is the only
change. -/
theorem content_insert {now : Int} {root new : Node} {names : List String} (hnew : new.entries = [])
    (hold : ∀ old, root.at? names = some old → old.isDir = false)
    (hup : ∀ front name, names = front ++ [name] →
      ∃ here, root.at? front = some here ∧ here.isDir = true) (place : List String) :
    ((insert now new names root).at? place).map content =
      if place = names then some new.content else (root.at? place).map content := by
  induction names generalizing root place with
  | nil =>
    have hroot := entries_of_isDir_eq_false (hold root rfl)
    cases place with
    | nil => rfl
    | cons name rest =>
      rw [if_neg (by simp), at?_of_no_entries hroot]
      show Option.map content (new.at? (name :: rest)) = _
      rw [at?_of_no_entries hnew]
  | cons k names ih =>
    obtain ⟨es, t, rfl⟩ : ∃ es t, root = dir es t := by
      cases root with
      | dir es t => exact ⟨es, t, rfl⟩
      | file data t =>
        obtain ⟨here, hhere, hdir⟩ := hup _ _ (List.dropLast_concat_getLast (by simp)).symm
        rw [eq_nil_of_at?_file (n := .file data t) rfl hhere] at hhere
        cases hhere
        cases hdir
    cases place with
    | nil =>
      have hkind := isDir_insert_cons now new (dir es t) k names
      rw [if_neg (by simp), at?_nil, at?_nil, Option.map_some, Option.map_some,
        content_eq_dir.mpr hkind]
      rfl
    | cons k' place =>
      cases hf : Table.find k es with
      | some child =>
        obtain ⟨t', hinto⟩ := insert_cons_into names hf
        have hchild (rest : List String) : (dir es t).at? (k :: rest) = child.at? rest := by
          rw [at?_dir_cons, hf, Option.bind_some]
        have hinner := ih (fun old ho => hold old ((hchild names).trans ho))
          (fun front name hsplit => by
            obtain ⟨here, hhere, hdir⟩ := hup (k :: front) name (by rw [hsplit, List.cons_append])
            exact ⟨here, (hchild front).symm.trans hhere, hdir⟩) place
        rw [hinto, at?_dir_put _ es t]
        by_cases hk : k' = k
        · rw [if_pos hk, hinner, hk, hchild]
          simp
        · rw [if_neg hk, if_neg (by simp [hk])]
      | none =>
        have hnil : names = [] := by
          by_contra hne
          obtain ⟨here, hhere, -⟩ := hup (k :: names.dropLast) (names.getLast hne)
            (by rw [List.cons_append, List.dropLast_concat_getLast])
          rw [at?_dir_cons, hf] at hhere
          cases hhere
        subst hnil
        rw [insert, at?_dir_put _ es t]
        by_cases hk : k' = k
        · rw [if_pos hk, hk, at?_dir_cons, hf]
          cases place with
          | nil => simp
          | cons name rest =>
            rw [at?_of_no_entries hnew, if_neg (by simp)]
            rfl
        · rw [if_neg hk, if_neg (by simp [hk])]

end Node

namespace FileSystem

open Kiln.Text

/-- What stands at a place. -/
def content (fs : FileSystem) (place : List String) : Option Node.Content :=
  (fs.root.at? place).map Node.content

theorem content_eq_dir {fs : FileSystem} {place : List String} :
    fs.content place = some .dir ↔ ∃ n, fs.root.at? place = some n ∧ n.isDir = true := by
  rw [content, Option.map_eq_some_iff]
  simp only [Node.content_eq_dir]

theorem content_eq_file {fs : FileSystem} {place : List String} {data : ByteArray} :
    fs.content place = some (.file data) ↔ ∃ t, fs.root.at? place = some (.file data t) := by
  rw [content, Option.map_eq_some_iff]
  constructor
  · rintro ⟨n, hn, hcontent⟩
    cases n with
    | dir es t => cases hcontent
    | file data' t =>
      cases hcontent
      exact ⟨t, hn⟩
  · rintro ⟨t, ht⟩
    exact ⟨_, ht, rfl⟩

theorem content_eq_none {fs : FileSystem} {place : List String} :
    fs.content place = none ↔ fs.root.at? place = none :=
  Option.map_eq_none_iff

/-! ## The way of a path -/

/-- The place of a path, which is told by its text and the directory it starts from. -/
def way (fs : FileSystem) (path : String) : List String :=
  (fs.fullPath? path).elim [] Path.names

/-- A path goes through a place: its first components lead there. -/
def Through (fs : FileSystem) (path : String) (place : List String) : Prop :=
  ∃ full, fs.fullPath? path = some full ∧
    ∃ front, front <+: Path.steps full ∧ (Path.foldNames [] front).reverse = place

/-- All that a path goes through is there, and is a directory. -/
def Open (fs : FileSystem) (path : String) : Prop :=
  ∀ place, fs.Through path place → fs.content place = some .dir

theorem way_of_fullPath? {fs : FileSystem} {path full : String} (h : fs.fullPath? path = some full) :
    fs.way path = Path.names full := by
  rw [way, h]
  rfl

theorem isName_of_way {fs : FileSystem} {path : String} :
    ∀ name ∈ fs.way path, Path.IsName name := by
  unfold way
  cases fs.fullPath? path with
  | none => simp
  | some full => exact Path.isName_of_names

theorem through_way {fs : FileSystem} {path full : String} (h : fs.fullPath? path = some full) :
    fs.Through path (fs.way path) :=
  ⟨full, h, _, List.prefix_rfl, by rw [way_of_fullPath? h]; rfl⟩

theorem fullPath?_congr {fs fs' : FileSystem} (h : fs'.start = fs.start) (path : String) :
    fs'.fullPath? path = fs.fullPath? path := by
  rw [fullPath?, fullPath?, h]

theorem through_congr {fs fs' : FileSystem} (h : fs'.start = fs.start) (path : String)
    (place : List String) : fs'.Through path place ↔ fs.Through path place := by
  rw [Through, Through, fullPath?_congr h]

theorem way_congr {fs fs' : FileSystem} (h : fs'.start = fs.start) (path : String) :
    fs'.way path = fs.way path := by
  rw [way, way, fullPath?_congr h]

/-- A path that goes on is seen from the same place. -/
theorem fullPath?_join {fs : FileSystem} {path full rel : String} (h : fs.fullPath? path = some full)
    (hrel : Path.isAbsolute rel = false) :
    ∃ full', fs.fullPath? (Path.join path rel) = some full' ∧
      Path.steps full' = Path.steps full ++ Path.steps rel := by
  have hkind := Path.isAbsolute_join_relative path hrel
  unfold fullPath? at h ⊢
  rw [hkind]
  by_cases habsolute : Path.isAbsolute path = true
  · rw [if_pos habsolute] at h ⊢
    cases h
    exact ⟨_, rfl, Path.steps_join path hrel⟩
  · rw [if_neg habsolute] at h ⊢
    obtain ⟨dir, hdir, rfl⟩ := Option.map_eq_some_iff.mp h
    rw [Bool.not_eq_true] at habsolute
    refine ⟨_, by rw [hdir]; rfl, ?_⟩
    rw [Path.steps_join dir (hkind.trans habsolute), Path.steps_join dir habsolute,
      Path.steps_join path hrel, List.append_assoc]

theorem way_join {fs : FileSystem} {path full rel : String} (h : fs.fullPath? path = some full)
    (hrel : Path.isAbsolute rel = false) :
    fs.way (Path.join path rel) = (Path.foldNames (fs.way path).reverse (Path.steps rel)).reverse := by
  obtain ⟨full', hfull', hsteps⟩ := fullPath?_join h hrel
  rw [way_of_fullPath? hfull', way_of_fullPath? h, Path.names, Path.names, hsteps,
    Path.foldNames_append, List.reverse_reverse]

theorem way_join_name {fs : FileSystem} {path full name : String} (h : fs.fullPath? path = some full)
    (hname : Path.IsName name) : fs.way (Path.join path name) = fs.way path ++ [name] := by
  rw [way_join h hname.not_isAbsolute, hname.steps]
  simp [Path.foldNames]

/-- A path with one more name goes through one more place. -/
theorem through_join_name {fs : FileSystem} {path full name : String} {place : List String}
    (h : fs.fullPath? path = some full) (hname : Path.IsName name)
    (hplace : fs.Through (Path.join path name) place) :
    fs.Through path place ∨ place = fs.way path ++ [name] := by
  obtain ⟨full', hfull', hsteps⟩ := fullPath?_join h hname.not_isAbsolute
  obtain ⟨full'', hfull'', front, hfront, rfl⟩ := hplace
  obtain rfl := Option.some.inj (hfull'.symm.trans hfull'')
  rw [hsteps, hname.steps, List.prefix_concat_iff] at hfront
  rcases hfront with rfl | hfront
  · right
    rw [way_of_fullPath? h, Path.names, Path.foldNames_append]
    simp [Path.foldNames]
  · exact .inl ⟨full, h, front, hfront, rfl⟩

/-- The names on the way to a place. -/
def Place.names : Place → List String
  | .found ns _ => ns
  | .free ns name _ => ns ++ [name]

theorem ofPiece?_of_isName {piece : String} (h : IsName piece) :
    Path.Component.ofPiece? piece = some (.name piece) := by
  obtain ⟨hempty, hhere, hup, -⟩ := h
  exact Path.ofPiece?_of_ne hempty hhere hup

theorem filterMap_of_silent {piece : String} (h : piece = "" ∨ piece = ".") (rest : List String)
    (stack : List String) :
    Path.foldNames stack ((piece :: rest).filterMap Path.Component.ofPiece?) =
      Path.foldNames stack (rest.filterMap Path.Component.ofPiece?) := by
  rcases h with rfl | rfl <;> rfl

/-- Wherever pieces lead, it is where they fold to. -/
theorem Leads.names_eq {root : Node} {names pieces : List String} {place : Place}
    (h : Leads root names pieces place) :
    place.names =
      (Path.foldNames names.reverse (pieces.filterMap Path.Component.ofPiece?)).reverse := by
  induction h with
  | done _ => exact (List.reverse_reverse _).symm
  | stay _ _ hsilent _ ih => rw [ih, filterMap_of_silent hsilent]
  | @up names _ _ _ _ _ _ ih =>
    rw [ih, List.filterMap_cons]
    show _ = (Path.foldNames names.reverse.tail _).reverse
    rw [List.tail_reverse]
  | down _ _ hname _ _ ih =>
    rw [ih, List.filterMap_cons, ofPiece?_of_isName hname, List.reverse_append]
    rfl
  | @free names _ piece rest _ _ hname _ hblank =>
    have hrest : rest.filterMap Path.Component.ofPiece? = [] := by
      rw [List.filterMap_eq_nil_iff]
      intro p hp
      rw [hblank p hp]
      rfl
    rw [List.filterMap_cons, ofPiece?_of_isName hname, hrest]
    simp [Path.foldNames, Place.names]

/-- Pieces that lead to a directory go through directories only. -/
theorem Leads.through {root n : Node} {names pieces ns : List String}
    (h : Leads root names pieces (.found ns n)) (hdir : n.isDir = true)
    {front : List Path.Component} (hfront : front <+: pieces.filterMap Path.Component.ofPiece?) :
    ∃ here, root.at? (Path.foldNames names.reverse front).reverse = some here ∧
      here.isDir = true := by
  generalize hplace : Place.found ns n = place at h
  induction h generalizing front with
  | @done names m hn =>
    cases hplace
    obtain rfl := List.prefix_nil.mp hfront
    exact ⟨n, by simpa [Path.foldNames] using hn, hdir⟩
  | @stay names here piece rest _ hn hhere hsilent _ ih =>
    rcases hsilent with rfl | rfl
    · exact ih hfront hplace
    · rcases List.prefix_cons_iff.mp hfront with rfl | ⟨front, rfl, hnext⟩
      · exact ⟨here, by simpa [Path.foldNames] using hn, hhere⟩
      · have hrest := ih hnext hplace
        exact hrest
  | @up names here rest _ hn hhere _ ih =>
    rcases List.prefix_cons_iff.mp hfront with rfl | ⟨front, rfl, hnext⟩
    · exact ⟨here, by simpa [Path.foldNames] using hn, hhere⟩
    · have hrest := ih hnext hplace
      rw [← List.tail_reverse] at hrest
      exact hrest
  | @down names here piece rest child _ hn hhere hname _ _ ih =>
    rw [List.filterMap_cons, ofPiece?_of_isName hname] at hfront
    rcases List.prefix_cons_iff.mp hfront with rfl | ⟨front, rfl, hnext⟩
    · exact ⟨here, by simpa [Path.foldNames] using hn, hhere⟩
    · have hrest := ih hnext hplace
      rw [List.reverse_append] at hrest
      exact hrest
  | free => cases hplace

/-- Wherever a path leads, it is its place. -/
theorem way_of_locate {fs : FileSystem} {path : String} {place : Place}
    (h : fs.locate path = .ok place) : place.names = fs.way path := by
  obtain ⟨-, full, hfull, hleads⟩ := locate_eq_ok_iff.mp h
  rw [way_of_fullPath? hfull, hleads.names_eq]
  rfl

theorem open_of_locate {fs : FileSystem} {path : String} {ns : List String} {n : Node}
    (h : fs.locate path = .ok (.found ns n)) (hdir : n.isDir = true) : fs.Open path := by
  obtain ⟨-, full, hfull, hleads⟩ := locate_eq_ok_iff.mp h
  rintro place ⟨full', hfull', front, hfront, rfl⟩
  obtain rfl := Option.some.inj (hfull.symm.trans hfull')
  exact content_eq_dir.mpr (hleads.through hdir hfront)

section Directory

variable {fs : FileSystem} {path : String}

theorem exists_fullPath?_of_isDir (h : fs.isDir path = true) :
    ∃ full, fs.fullPath? path = some full := by
  obtain ⟨names, n, hl, -⟩ := isDir_eq_true_iff.mp h
  obtain ⟨-, full, hfull, -⟩ := locate_eq_ok_iff.mp hl
  exact ⟨full, hfull⟩

/-- A path to a directory goes through directories only. -/
theorem open_of_isDir (h : fs.isDir path = true) : fs.Open path := by
  obtain ⟨names, n, hl, hn⟩ := isDir_eq_true_iff.mp h
  exact open_of_locate hl hn

theorem content_way_of_isDir (h : fs.isDir path = true) : fs.content (fs.way path) = some .dir := by
  obtain ⟨full, hfull⟩ := exists_fullPath?_of_isDir h
  exact open_of_isDir h _ (through_way hfull)

end Directory

/-! ## Putting a node somewhere -/

theorem content_put_free {fs : FileSystem} {path name : String} {names : List String} {slash : Bool}
    {new : Node} (hnew : new.entries = []) (hl : fs.locate path = .ok (.free names name slash))
    (place : List String) :
    (fs.put (names ++ [name]) new).content place =
      if place = fs.way path then some new.content else fs.content place := by
  obtain ⟨-, full, -, hleads⟩ := locate_eq_ok_iff.mp hl
  obtain ⟨here, hhere, hdir, hfree⟩ := hleads.at?_free
  have hnone : fs.root.at? (names ++ [name]) = none := (Node.at?_concat name hhere).trans hfree
  rw [← way_of_locate hl]
  refine Node.content_insert hnew (by simp [hnone]) (fun front last hlast => ?_) place
  obtain ⟨rfl, -⟩ := List.append_inj' hlast rfl
  exact ⟨here, hhere, hdir⟩

theorem content_put_file {fs : FileSystem} {path : String} {names : List String} {old new : Node}
    (hnew : new.entries = []) (hl : fs.locate path = .ok (.found names old))
    (hold : old.isDir = false) (place : List String) :
    (fs.put names new).content place =
      if place = fs.way path then some new.content else fs.content place := by
  have hat := at?_of_locate_found hl
  rw [← way_of_locate hl]
  refine Node.content_insert hnew (fun o ho => ?_) (fun front last hlast => ?_) place
  · obtain rfl := Option.some.inj (hat.symm.trans ho)
    exact hold
  · rw [hlast, Node.at?_append] at hat
    obtain ⟨here, hhere, hentry⟩ := Option.bind_eq_some_iff.mp hat
    refine ⟨here, hhere, ?_⟩
    cases here with
    | file data t => simp [Node.at?_file_cons] at hentry
    | dir es t => rfl

theorem valid_put {fs : FileSystem} (h : fs.root.Valid) {path : String} {place : Place} {new : Node}
    (hl : fs.locate path = .ok place) (hnew : new.Valid) :
    (fs.put place.names new).root.Valid := by
  rw [way_of_locate hl]
  exact h.insert hnew fs.clock isName_of_way

end FileSystem

end Kiln
