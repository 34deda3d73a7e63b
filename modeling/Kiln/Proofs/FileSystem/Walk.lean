import Kiln.FileSystem
import Kiln.Proofs.Table
import Mathlib.Tactic.SplitIfs

/-!
# Kiln.Proofs.FileSystem.Walk — walking a tree that grows

`Leads` is the successful walk of a path as a relation, which remembers the names only and looks the
nodes up from the root; `walk_eq_ok_iff` says that it is the walk.  So where a path leads depends on
what `Node.at?` finds, and a tree that `Grows` keeps every path that leads somewhere.  `Node.insert`
makes a tree grow if it puts a file over a file or anything where nothing was.
-/

namespace Kiln

namespace Node

/-- The node at the end of a way of names. -/
def at? : Node → List String → Option Node
  | n, [] => some n
  | n, name :: rest => (Table.find name n.entries).bind (at? · rest)

@[simp] theorem at?_nil (n : Node) : n.at? [] = some n := rfl

theorem at?_cons (n : Node) (name : String) (rest : List String) :
    n.at? (name :: rest) = (Table.find name n.entries).bind (at? · rest) := rfl

theorem at?_append (n : Node) (a b : List String) :
    n.at? (a ++ b) = (n.at? a).bind (at? · b) := by
  induction a generalizing n with
  | nil => rfl
  | cons name a ih =>
    rw [List.cons_append, at?_cons, at?_cons]
    cases Table.find name n.entries with
    | none => rfl
    | some child => exact ih child

theorem at?_concat {n here : Node} {names : List String} (name : String)
    (h : n.at? names = some here) : n.at? (names ++ [name]) = Table.find name here.entries := by
  rw [at?_append, h, Option.bind_some, at?_cons]
  cases Table.find name here.entries <;> rfl

/-- Whatever is somewhere in `r` is there in `r'` too, a file as a file and a directory as one. -/
def Grows (r r' : Node) : Prop :=
  ∀ names n, r.at? names = some n → ∃ n', r'.at? names = some n' ∧ n'.isDir = n.isDir

/-- Every file of `r` is unchanged in `r'`. -/
def Spares (r r' : Node) : Prop :=
  ∀ names n, r.at? names = some n → n.isDir = false → r'.at? names = some n

theorem Grows.refl (r : Node) : r.Grows r := fun _ n h => ⟨n, h, rfl⟩

theorem Grows.trans {r s t : Node} (hrs : r.Grows s) (hst : s.Grows t) : r.Grows t := by
  intro names n h
  obtain ⟨n₁, h₁, hk₁⟩ := hrs names n h
  obtain ⟨n₂, h₂, hk₂⟩ := hst names n₁ h₁
  exact ⟨n₂, h₂, hk₂.trans hk₁⟩

theorem Spares.refl (r : Node) : r.Spares r := fun _ _ h _ => h

theorem Spares.trans {r s t : Node} (hrs : r.Spares s) (hst : s.Spares t) : r.Spares t :=
  fun names n h hn => hst names n (hrs names n h hn) hn

/-! ## Insertion -/

theorem at?_file_cons (data : ByteArray) (t : Int) (name : String) (rest : List String) :
    (file data t).at? (name :: rest) = none := rfl

theorem at?_dir_cons (es : List (String × Node)) (t : Int) (name : String) (rest : List String) :
    (dir es t).at? (name :: rest) = (Table.find name es).bind (at? · rest) := rfl

theorem eq_nil_of_at?_file {n m : Node} {names : List String} (hn : n.isDir = false)
    (h : n.at? names = some m) : names = [] := by
  cases n with
  | dir es t => simp [isDir] at hn
  | file data t =>
    cases names with
    | nil => rfl
    | cons name rest => simp [at?_file_cons] at h

theorem insert_file (now : Int) (new : Node) (name : String) (rest : List String)
    (data : ByteArray) (t : Int) : insert now new (name :: rest) (file data t) = file data t := by
  cases rest <;> rfl

theorem insert_cons_of_find {now t : Int} {new child : Node} {name : String} {rest : List String}
    {es : List (String × Node)} (hrest : rest ≠ []) (h : Table.find name es = some child) :
    insert now new (name :: rest) (dir es t) =
      dir (Table.put name (insert now new rest child) es) t := by
  cases rest with
  | nil => exact absurd rfl hrest
  | cons name' rest => simp [insert, h]

theorem insert_cons_of_none {now t : Int} {new : Node} {name : String} {rest : List String}
    {es : List (String × Node)} (hrest : rest ≠ []) (h : Table.find name es = none) :
    insert now new (name :: rest) (dir es t) = dir es t := by
  cases rest with
  | nil => exact absurd rfl hrest
  | cons name' rest => simp [insert, h]

theorem isDir_insert_cons (now : Int) (new n : Node) (name : String) (rest : List String) :
    (insert now new (name :: rest) n).isDir = n.isDir := by
  cases n with
  | file data t => rw [insert_file]
  | dir es t =>
    cases rest with
    | nil => rfl
    | cons name' rest => cases hf : Table.find name es <;> simp [insert, hf, isDir]

/-- What was put into a directory is there. -/
theorem at?_insert_self (now : Int) (new : Node) {root here : Node} {names : List String}
    (name : String) (h : root.at? names = some here) (hdir : here.isDir = true) :
    (insert now new (names ++ [name]) root).at? (names ++ [name]) = some new := by
  induction names generalizing root with
  | nil =>
    obtain rfl : root = here := by simpa using h
    cases root with
    | file data t => simp [isDir] at hdir
    | dir es t => simp [insert, at?_dir_cons, Table.find_put_self]
  | cons k names ih =>
    cases root with
    | file data t => simp [at?_file_cons] at h
    | dir es t =>
      rw [at?_dir_cons] at h
      obtain ⟨child, hchild, h⟩ := Option.bind_eq_some_iff.mp h
      rw [List.cons_append, insert_cons_of_find (by simp) hchild, at?_dir_cons,
        Table.find_put_self]
      exact ih h

/-- A node put somewhere leaves what stands anywhere else: files as they are, directories as
directories. -/
theorem at?_insert_of_ne {now : Int} {new root n : Node} {names names' : List String}
    (hold : ∀ old, root.at? names = some old → old.isDir = false) (hne : names' ≠ names)
    (h : root.at? names' = some n) :
    ∃ n', (insert now new names root).at? names' = some n' ∧ n'.isDir = n.isDir ∧
      (n.isDir = false → n' = n) := by
  induction names generalizing root names' with
  | nil => exact absurd (eq_nil_of_at?_file (hold root rfl) h) hne
  | cons k names ih =>
    cases names' with
    | nil =>
      obtain rfl : root = n := by simpa using h
      refine ⟨_, rfl, isDir_insert_cons .., fun hfile => ?_⟩
      cases root with
      | file data t => exact insert_file ..
      | dir es t => simp [isDir] at hfile
    | cons k' names' =>
      cases root with
      | file data t => simp [at?_file_cons] at h
      | dir es t =>
        simp only [at?_dir_cons] at h hold
        obtain ⟨child, hchild, h⟩ := Option.bind_eq_some_iff.mp h
        by_cases hnil : names = []
        · subst hnil
          have hk : k' ≠ k := by
            -- otherwise a file stands where the new node goes, and nothing is below it
            rintro rfl
            have hfile := hold child (by rw [hchild]; rfl)
            exact hne (by rw [eq_nil_of_at?_file hfile h])
          refine ⟨n, ?_, rfl, fun _ => rfl⟩
          rw [insert, at?_dir_cons, Table.find_put_of_ne new hk, hchild]
          exact h
        · cases hf : Table.find k es with
          | none =>
            refine ⟨n, ?_, rfl, fun _ => rfl⟩
            rw [insert_cons_of_none hnil hf, at?_dir_cons, hchild]
            exact h
          | some old =>
            rw [insert_cons_of_find hnil hf, at?_dir_cons]
            by_cases hk : k' = k
            · subst hk
              obtain rfl : old = child := Option.some.inj (hf.symm.trans hchild)
              rw [Table.find_put_self]
              rw [hf] at hold
              exact ih hold (fun heq => hne (by rw [heq])) h
            · rw [Table.find_put_of_ne _ hk, hchild]
              exact ⟨n, h, rfl, fun _ => rfl⟩

/-- Anything may be put where nothing is. -/
theorem grows_insert_of_free (now : Int) (new : Node) {root : Node} {names : List String}
    (h : root.at? names = none) :
    root.Grows (insert now new names root) ∧ root.Spares (insert now new names root) := by
  have hold : ∀ old, root.at? names = some old → old.isDir = false := by simp [h]
  constructor
  · intro names' n hn
    obtain ⟨n', hn', hkind, -⟩ := at?_insert_of_ne hold (by rintro rfl; simp [h] at hn) hn
    exact ⟨n', hn', hkind⟩
  · intro names' n hn hfile
    obtain ⟨n', hn', -, heq⟩ := at?_insert_of_ne hold (by rintro rfl; simp [h] at hn) hn
    rw [hn', heq hfile]

/-- A file that is there may be replaced by a file. -/
theorem at?_insert_file (now : Int) {root old new : Node} {names : List String}
    (h : root.at? names = some old) :
    (insert now new names root).at? names = some new := by
  rcases List.eq_nil_or_concat names with rfl | ⟨front, name, rfl⟩
  · rfl
  · rw [List.concat_eq_append, at?_append] at h
    rw [List.concat_eq_append]
    obtain ⟨here, hhere, h⟩ := Option.bind_eq_some_iff.mp h
    refine at?_insert_self now new name hhere ?_
    cases here with
    | file data t => simp [at?_file_cons] at h
    | dir es t => rfl

theorem grows_insert_of_file (now : Int) {root old new : Node} {names : List String}
    (h : root.at? names = some old) (hold : old.isDir = false) (hnew : new.isDir = false) :
    root.Grows (insert now new names root) := by
  intro names' n hn
  by_cases hne : names' = names
  · subst hne
    obtain rfl : old = n := Option.some.inj (h.symm.trans hn)
    exact ⟨new, at?_insert_file now h, hnew.trans hold.symm⟩
  · have hfile : ∀ o, root.at? names = some o → o.isDir = false := by
      intro o ho
      obtain rfl : old = o := Option.some.inj (h.symm.trans ho)
      exact hold
    obtain ⟨n', hn', hkind, -⟩ := at?_insert_of_ne hfile hne hn
    exact ⟨n', hn', hkind⟩

end Node

namespace FileSystem

/-! ## Walking by names -/

/-- What a piece must be to stand for an entry of a directory. -/
def IsName (piece : String) : Prop :=
  piece ≠ "" ∧ piece ≠ "." ∧ piece ≠ ".." ∧ piece.utf8ByteSize ≤ maxName

/-- The pieces of a path lead from the place `names` to a place. -/
inductive Leads (root : Node) : List String → List String → Place → Prop
  | done {names n} : root.at? names = some n → Leads root names [] (.found names n)
  | stay {names here piece rest place} : root.at? names = some here → here.isDir = true →
      piece = "" ∨ piece = "." → Leads root names rest place →
      Leads root names (piece :: rest) place
  | up {names here rest place} : root.at? names = some here → here.isDir = true →
      Leads root names.dropLast rest place → Leads root names (".." :: rest) place
  | down {names here piece rest child place} : root.at? names = some here → here.isDir = true →
      IsName piece → Table.find piece here.entries = some child →
      Leads root (names ++ [piece]) rest place → Leads root names (piece :: rest) place
  | free {names here piece rest} : root.at? names = some here → here.isDir = true →
      IsName piece → Table.find piece here.entries = none → (∀ p ∈ rest, p = "") →
      Leads root names (piece :: rest) (.free names piece (!rest.isEmpty))

/-- The nodes of a trail are those its names lead to. -/
def Follows (root : Node) : List (String × Node) → Prop
  | [] => True
  | (name, n) :: trail => root.at? (namesOf trail ++ [name]) = some n ∧ Follows root trail

theorem namesOf_cons (e : String × Node) (trail : List (String × Node)) :
    namesOf (e :: trail) = namesOf trail ++ [e.1] := by
  simp [namesOf]

theorem namesOf_tail (trail : List (String × Node)) :
    namesOf trail.tail = (namesOf trail).dropLast := by
  cases trail with
  | nil => rfl
  | cons e trail => simp [namesOf_cons]

theorem Follows.tail {root : Node} {trail : List (String × Node)} (h : Follows root trail) :
    Follows root trail.tail := by
  cases trail with
  | nil => trivial
  | cons e trail => exact h.2

theorem Follows.at?_namesOf {root : Node} {trail : List (String × Node)} (h : Follows root trail) :
    root.at? (namesOf trail) = some (trail.head?.elim root (·.2)) := by
  cases trail with
  | nil => rfl
  | cons e trail =>
    rw [namesOf_cons]
    exact h.1

theorem Follows.cons {root child : Node} {trail : List (String × Node)} {piece : String}
    (h : Follows root trail)
    (hf : Table.find piece (trail.head?.elim root (·.2)).entries = some child) :
    Follows root ((piece, child) :: trail) :=
  ⟨by rw [Node.at?_concat piece h.at?_namesOf, hf], h⟩

theorem leads_of_walk {root : Node} {trail : List (String × Node)} (h : Follows root trail)
    {pieces : List String} {place : Place} (hw : walk root trail pieces = .ok place) :
    Leads root (namesOf trail) pieces place := by
  induction pieces generalizing trail with
  | nil =>
    obtain rfl : _ = place := Except.ok.inj hw
    exact .done h.at?_namesOf
  | cons piece rest ih =>
    have hhere := h.at?_namesOf
    rw [walk] at hw
    by_cases hfile : (trail.head?.elim root (·.2)).isDir = false
    · simp [hfile] at hw
    have hdir : (trail.head?.elim root (·.2)).isDir = true := by simpa using hfile
    simp only [hdir, Bool.not_true, Bool.false_eq_true, if_false] at hw
    by_cases hsilent : piece = "" ∨ piece = "."
    · rw [if_pos hsilent] at hw
      exact .stay hhere hdir hsilent (ih h hw)
    rw [if_neg hsilent] at hw
    by_cases hup : piece = ".."
    · subst hup
      have hrest := ih h.tail hw
      rw [namesOf_tail] at hrest
      exact .up hhere hdir hrest
    rw [if_neg hup] at hw
    by_cases hlong : piece.utf8ByteSize > maxName
    · simp [hlong] at hw
    rw [if_neg hlong] at hw
    have hname : IsName piece :=
      ⟨fun he => hsilent (.inl he), fun he => hsilent (.inr he), hup, by omega⟩
    cases hf : Table.find piece (trail.head?.elim root (·.2)).entries with
    | some child =>
      rw [hf] at hw
      have hrest := ih (h.cons hf) hw
      rw [namesOf_cons] at hrest
      exact .down hhere hdir hname hf hrest
    | none =>
      simp only [hf] at hw
      split_ifs at hw with hblank
      obtain rfl : _ = place := Except.ok.inj hw
      exact .free hhere hdir hname hf (by simpa using hblank)

theorem walk_of_leads {root : Node} {trail : List (String × Node)} (h : Follows root trail)
    {pieces : List String} {place : Place} (hl : Leads root (namesOf trail) pieces place) :
    walk root trail pieces = .ok place := by
  generalize hnames : namesOf trail = names at hl
  induction hl generalizing trail with
  | done hn =>
    subst hnames
    rw [walk, Option.some.inj (h.at?_namesOf.symm.trans hn)]
  | stay hn hdir hsilent _ ih =>
    subst hnames
    obtain rfl := Option.some.inj (h.at?_namesOf.symm.trans hn)
    rw [walk]
    simp only [hdir, hsilent]
    exact ih h rfl
  | up hn hdir _ ih =>
    subst hnames
    obtain rfl := Option.some.inj (h.at?_namesOf.symm.trans hn)
    rw [walk]
    simp only [hdir]
    exact ih h.tail (namesOf_tail trail)
  | down hn hdir hname hf _ ih =>
    subst hnames
    obtain rfl := Option.some.inj (h.at?_namesOf.symm.trans hn)
    obtain ⟨h1, h2, h3, h4⟩ := hname
    rw [walk]
    simp only [hdir, h1, h2, h3, hf, Nat.not_lt.mpr h4]
    exact ih (h.cons hf) (namesOf_cons ..)
  | free hn hdir hname hf hblank =>
    subst hnames
    obtain rfl := Option.some.inj (h.at?_namesOf.symm.trans hn)
    obtain ⟨h1, h2, h3, h4⟩ := hname
    rw [walk]
    simp only [hdir, h1, h2, h3, hf, Nat.not_lt.mpr h4]
    simpa using hblank

theorem walk_eq_ok_iff {root : Node} {pieces : List String} {place : Place} :
    walk root [] pieces = .ok place ↔ Leads root [] pieces place := by
  have h : Follows root [] := trivial
  exact ⟨leads_of_walk h, walk_of_leads h⟩

/-- A place that is found holds the node that is there. -/
theorem Leads.at?_found {root n : Node} {names pieces ns : List String}
    (h : Leads root names pieces (.found ns n)) : root.at? ns = some n := by
  generalize hplace : Place.found ns n = place at h
  induction h with
  | done hn =>
    cases hplace
    exact hn
  | stay _ _ _ _ ih => exact ih hplace
  | up _ _ _ ih => exact ih hplace
  | down _ _ _ _ _ ih => exact ih hplace
  | free => cases hplace

/-- A free place is a missing entry of a directory that is there. -/
theorem Leads.at?_free {root : Node} {names pieces ns : List String} {name : String}
    {slash : Bool} (h : Leads root names pieces (.free ns name slash)) :
    ∃ here, root.at? ns = some here ∧ here.isDir = true ∧
      Table.find name here.entries = none := by
  generalize hplace : Place.free ns name slash = place at h
  induction h with
  | done => cases hplace
  | stay _ _ _ _ ih => exact ih hplace
  | up _ _ _ ih => exact ih hplace
  | down _ _ _ _ _ ih => exact ih hplace
  | free hn hdir _ hf _ =>
    cases hplace
    exact ⟨_, hn, hdir, hf⟩

/-- Empty pieces after a place lead nowhere else. -/
theorem Leads.blank {root n : Node} {names pieces : List String} (h : root.at? names = some n)
    (hblank : ∀ p ∈ pieces, p = "") (hdir : pieces ≠ [] → n.isDir = true) :
    Leads root names pieces (.found names n) := by
  induction pieces with
  | nil => exact .done h
  | cons piece rest ih =>
    have hn : n.isDir = true := hdir (by simp)
    refine .stay h hn (.inl (hblank piece List.mem_cons_self)) ?_
    exact ih (fun p hp => hblank p (List.mem_cons_of_mem _ hp)) fun _ => hn

theorem Leads.append {root n : Node} {names a b ns : List String} {place : Place}
    (ha : Leads root names a (.found ns n)) (hb : Leads root ns b place) :
    Leads root names (a ++ b) place := by
  generalize hplace : Place.found ns n = found at ha
  induction ha with
  | done =>
    cases hplace
    exact hb
  | stay hn hdir hsilent _ ih => exact .stay hn hdir hsilent (ih hplace)
  | up hn hdir _ ih => exact .up hn hdir (ih hplace)
  | down hn hdir hname hf _ ih => exact .down hn hdir hname hf (ih hplace)
  | free => cases hplace

/-- A path that goes on with more than separators leads through a directory. -/
theorem Leads.front {root : Node} {names a b : List String} {place : Place}
    (h : Leads root names (a ++ b) place) (hb : ∃ p ∈ b, p ≠ "") :
    ∃ ns n, Leads root names a (.found ns n) ∧ n.isDir = true := by
  induction a generalizing names with
  | nil =>
    obtain ⟨p, hp, hne⟩ := hb
    cases h with
    | done => cases hp
    | stay hn hdir _ _ => exact ⟨names, _, .done hn, hdir⟩
    | up hn hdir _ => exact ⟨names, _, .done hn, hdir⟩
    | down hn hdir _ _ _ => exact ⟨names, _, .done hn, hdir⟩
    | free hn hdir _ _ _ => exact ⟨names, _, .done hn, hdir⟩
  | cons piece a ih =>
    cases h with
    | stay hn hdir hsilent hrest =>
      obtain ⟨ns, n, hl, hn'⟩ := ih hrest
      exact ⟨ns, n, .stay hn hdir hsilent hl, hn'⟩
    | up hn hdir hrest =>
      obtain ⟨ns, n, hl, hn'⟩ := ih hrest
      exact ⟨ns, n, .up hn hdir hl, hn'⟩
    | down hn hdir hname hf hrest =>
      obtain ⟨ns, n, hl, hn'⟩ := ih hrest
      exact ⟨ns, n, .down hn hdir hname hf hl, hn'⟩
    | free _ _ _ _ hblank =>
      obtain ⟨p, hp, hne⟩ := hb
      exact absurd (hblank p (List.mem_append_right _ hp)) hne

/-- A path that leads somewhere still does after the tree has grown. -/
theorem Leads.grows {root root' n : Node} {names pieces ns : List String}
    (hg : root.Grows root') (h : Leads root names pieces (.found ns n)) :
    ∃ n', Leads root' names pieces (.found ns n') ∧ n'.isDir = n.isDir := by
  generalize hplace : Place.found ns n = place at h
  induction h with
  | done hn =>
    cases hplace
    obtain ⟨n', hn', hkind⟩ := hg _ _ hn
    exact ⟨n', .done hn', hkind⟩
  | stay hn hdir hsilent _ ih =>
    obtain ⟨here', hn', hkind⟩ := hg _ _ hn
    obtain ⟨n', hl, hk⟩ := ih hplace
    exact ⟨n', .stay hn' (hkind.trans hdir) hsilent hl, hk⟩
  | up hn hdir _ ih =>
    obtain ⟨here', hn', hkind⟩ := hg _ _ hn
    obtain ⟨n', hl, hk⟩ := ih hplace
    exact ⟨n', .up hn' (hkind.trans hdir) hl, hk⟩
  | down hn hdir hname hf _ ih =>
    obtain ⟨here', hn', hkind⟩ := hg _ _ hn
    obtain ⟨child', hchild', -⟩ := hg _ _ ((Node.at?_concat _ hn).trans hf)
    obtain ⟨n', hl, hk⟩ := ih hplace
    rw [Node.at?_concat _ hn'] at hchild'
    exact ⟨n', .down hn' (hkind.trans hdir) hname hchild' hl, hk⟩
  | free => cases hplace

/-- A path to a free place leads to what is put there. -/
theorem Leads.filled {root root' n : Node} {names pieces ns : List String} {name : String}
    {slash : Bool} (hg : root.Grows root') (hn : root'.at? (ns ++ [name]) = some n)
    (hslash : slash = true → n.isDir = true)
    (h : Leads root names pieces (.free ns name slash)) :
    Leads root' names pieces (.found (ns ++ [name]) n) := by
  generalize hplace : Place.free ns name slash = place at h
  induction h with
  | done => cases hplace
  | stay hn hdir hsilent _ ih =>
    obtain ⟨here', hn', hkind⟩ := hg _ _ hn
    exact .stay hn' (hkind.trans hdir) hsilent (ih hplace)
  | up hn hdir _ ih =>
    obtain ⟨here', hn', hkind⟩ := hg _ _ hn
    exact .up hn' (hkind.trans hdir) (ih hplace)
  | down hn hdir hname hf _ ih =>
    obtain ⟨here', hn', hkind⟩ := hg _ _ hn
    obtain ⟨child', hchild', -⟩ := hg _ _ ((Node.at?_concat _ hn).trans hf)
    rw [Node.at?_concat _ hn'] at hchild'
    exact .down hn' (hkind.trans hdir) hname hchild' (ih hplace)
  | free hhere hdir hname _ hblank =>
    cases hplace
    obtain ⟨here', hhere', hkind⟩ := hg _ _ hhere
    refine .down hhere' (hkind.trans hdir) hname ((Node.at?_concat _ hhere').symm.trans hn) ?_
    exact .blank hn hblank fun hne => hslash (by simpa using hne)

end FileSystem

end Kiln
