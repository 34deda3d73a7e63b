import Kiln.Proofs.Eval.Depends
import Kiln.Proofs.Text.Numeral

/-!
# Kiln.Proofs.Fingerprint.Files — what a digest says of the files of a step

The text a step is digested from lists its files with their sizes and times, which are written
without their lengths, around paths that may hold anything.  Given the paths it is read back from the
left all the same: every entry begins with a path that is known, and its numbers end at a colon.  So
two such texts are equal only if every file on the list has the same size and time in both file
systems, or is missing from both, and the texts of the actions are equal.
-/

namespace Kiln

open Kiln.Action Text.Numeral

/-! ## The text of an entry -/

/-- What is written of a file's size and time, or of its absence. -/
def stateText : Option (Nat × Int) → String
  | some (size, time) => ":exists:size:" ++ toString size ++ ":time:" ++ toString time ++ ":"
  | none => ":not exists:"

theorem stateText_some (size : Nat) (time : Int) :
    stateText (some (size, time)) =
      ":exists:size:" ++ toString size ++ ":time:" ++ toString time ++ ":" :=
  rfl

/-- What is written of a file. -/
def entryText (files : FileSystem) (path : String) : String :=
  "[name:[" ++ path ++ "]" ++ stateText (files.info? path) ++ "]"

theorem dependencyText_toList (files : FileSystem) (paths : List String) (action : String) :
    (dependencyText files paths action).toList =
      "depends:files[".toList ++
        (paths.flatMap (fun path => (entryText files path).toList) ++ ("]".toList ++ action.toList)) := by
  have hentry : dependencyText files paths action =
      "depends:files[" ++ String.join (paths.map (entryText files)) ++ "]" ++ action := by
    rfl
  rw [hentry]
  simp only [String.toList_append, String.toList_join, List.append_assoc, List.flatMap_map]

theorem noDigit_colon (r : List Char) : NoDigit (':' :: r) := by
  intro c hc
  cases hc
  rfl

/-- A file's size and time are read off the front of a text, as long as the time is not before the
epoch. -/
theorem stateText_append_inj {a b : Option (Nat × Nat)} {r r' : List Char}
    (h : (stateText (a.map fun x => (x.1, (x.2 : Int)))).toList ++ r =
      (stateText (b.map fun x => (x.1, (x.2 : Int)))).toList ++ r') : a = b ∧ r = r' := by
  have hnumber (n : Nat) : (toString (n : Int)).toList = Nat.toDigits 10 n := by
    rw [← Nat.toList_repr]
    rfl
  -- the second character tells a file that is there from one that is not
  have hpresent (size : Nat) (time : Int) (r : List Char) :
      ∃ rest, (stateText (some (size, time))).toList ++ r = ':' :: 'e' :: rest := by
    simp only [stateText_some, String.toList_append, List.append_assoc]
    exact ⟨_, rfl⟩
  have habsent (r : List Char) : ∃ rest, (stateText none).toList ++ r = ':' :: 'n' :: rest := ⟨_, rfl⟩
  rcases a with _ | ⟨size, time⟩ <;> rcases b with _ | ⟨size', time'⟩
  · exact ⟨rfl, List.append_cancel_left h⟩
  · obtain ⟨rest, hrest⟩ := habsent r
    obtain ⟨rest', hrest'⟩ := hpresent size' time' r'
    cases hrest.symm.trans (h.trans hrest')
  · obtain ⟨rest, hrest⟩ := hpresent size time r
    obtain ⟨rest', hrest'⟩ := habsent r'
    cases hrest.symm.trans (h.trans hrest')
  · simp only [Option.map_some, stateText_some, String.toList_append, List.append_assoc, hnumber,
      Nat.toString_eq_repr, Nat.toList_repr] at h
    have htimes (r : List Char) : NoDigit (":time:".toList ++ r) :=
      noDigit_colon ("time:".toList ++ r)
    have hcolon (r : List Char) : NoDigit (":".toList ++ r) := noDigit_colon r
    obtain ⟨hsize, h⟩ := toDigits_append_inj (htimes _) (htimes _) (List.append_cancel_left h)
    obtain ⟨htime, h⟩ := toDigits_append_inj (hcolon _) (hcolon _) (List.append_cancel_left h)
    exact ⟨by rw [hsize, htime], List.append_cancel_left h⟩

/-- There are no times before the epoch in what is written. -/
theorem FileSystem.info?_eq_map (files : FileSystem) (path : String) :
    ∃ x : Option (Nat × Nat), files.info? path = x.map fun x => (x.1, (x.2 : Int)) := by
  unfold info?
  split
  · rename_i node _
    exact ⟨some (node.size, node.modified.toNat), by simp [Int.max_comm]⟩
  · exact ⟨none, rfl⟩

theorem entryText_append_inj {files files' : FileSystem} {path : String} {r r' : List Char}
    (h : (entryText files path).toList ++ r = (entryText files' path).toList ++ r') :
    files.info? path = files'.info? path ∧ r = r' := by
  obtain ⟨x, hx⟩ := files.info?_eq_map path
  obtain ⟨y, hy⟩ := files'.info?_eq_map path
  simp only [entryText, String.toList_append, List.append_assoc, hx, hy] at h
  have hstate := List.append_cancel_left (List.append_cancel_left (List.append_cancel_left h))
  obtain ⟨rfl, hrest⟩ := stateText_append_inj hstate
  exact ⟨hx.trans hy.symm, List.append_cancel_left hrest⟩

theorem entries_append_inj {files files' : FileSystem} {paths : List String} {r r' : List Char}
    (h : paths.flatMap (fun path => (entryText files path).toList) ++ r =
      paths.flatMap (fun path => (entryText files' path).toList) ++ r') :
    (∀ path ∈ paths, files.info? path = files'.info? path) ∧ r = r' := by
  induction paths with
  | nil => exact ⟨by simp, h⟩
  | cons path paths ih =>
    rw [List.flatMap_cons, List.flatMap_cons, List.append_assoc, List.append_assoc] at h
    obtain ⟨hpath, hrest⟩ := entryText_append_inj h
    obtain ⟨hpaths, hrest⟩ := ih hrest
    exact ⟨List.forall_mem_cons.mpr ⟨hpath, hpaths⟩, hrest⟩

/-- Over one list of paths, equal texts come from files with equal sizes and times and from actions
with equal texts. -/
theorem dependencyText_inj {files files' : FileSystem} {paths : List String} {action action' : String} :
    dependencyText files paths action = dependencyText files' paths action' ↔
      (∀ path ∈ paths, files.info? path = files'.info? path) ∧ action = action' := by
  constructor
  · intro h
    have htexts := congrArg String.toList h
    rw [dependencyText_toList, dependencyText_toList] at htexts
    obtain ⟨hfiles, hrest⟩ := entries_append_inj (List.append_cancel_left htexts)
    exact ⟨hfiles, String.toList_inj.mp (List.append_cancel_left hrest)⟩
  · rintro ⟨hfiles, rfl⟩
    have hentries : paths.map (entryText files) = paths.map (entryText files') :=
      List.map_congr_left fun path hpath => by rw [entryText, entryText, hfiles path hpath]
    show "depends:files[" ++ String.join (paths.map (entryText files)) ++ "]" ++ action = _
    rw [hentries]
    rfl

/-- The size of what a path leads to, and when it was changed. -/
def FileSystem.stat? (files : FileSystem) (path : String) : Option (Nat × Int) :=
  match files.node path with
  | .ok node => some (node.size, node.modified)
  | .error _ => none

/-- Times before the epoch count as the epoch. -/
theorem FileSystem.info?_eq_stat (files : FileSystem) (path : String) :
    files.info? path = (files.stat? path).map fun (size, modified) => (size, max 0 modified) := by
  unfold info? stat?
  cases files.node path <;> rfl

/-! ## Steps -/

/-- The absolute paths a step depends on. -/
def listedPaths (n : Nat) (paths : Expr) : Action (List String) := do
  let listed ← eval n paths
  let values ← elementsOf listed
  let texts ← textsOf values
  let s ← Step.state
  return texts.map s.run.resolve

/-- The text a step is digested from. -/
def digestInput (n : Nat) (paths : Expr) (action : Stmt) : Action String := do
  let listed ← listedPaths n paths
  let s ← Step.state
  let code ← Step.ofOutcome (Fingerprint.stmt (viewOf s) action)
  return dependencyText s.files listed code

/-- A step asks the store for the digest of the text. -/
theorem digestOf_eq (n : Nat) (paths : Expr) (action : Stmt) :
    digestOf n paths action = digestInput n paths action >>= fun text => pure (Digest.ofText text) := by
  funext s
  simp only [digestOf, digestInput, listedPaths, elementsOf, Step.look, Step.state, Step.ofOutcome,
    Step.bind_run, Step.pure_run]
  rcases eval n paths s with ⟨o, t⟩
  cases o with
  | error | exhausted => rfl
  | ok listed =>
    dsimp only
    rcases textsOf (t.memory.elements listed) t with ⟨o, u⟩
    cases o with
    | error | exhausted => rfl
    | ok texts =>
      dsimp only
      cases Fingerprint.stmt (viewOf u) action <;> rfl

section

variable {n : Nat} {paths : Expr} {action : Stmt} {s t : Machine} {listed : List String}
  {text : String}

theorem digestInput_eq_ok (h : digestInput n paths action s = (.ok text, t)) :
    ∃ listed code, listedPaths n paths s = (.ok listed, t) ∧
      Fingerprint.stmt (viewOf t) action = .ok code ∧
      text = dependencyText t.files listed code := by
  obtain ⟨listed, u, hlisted, hrest⟩ := Step.bind_eq_ok.mp h
  obtain ⟨machine, u', hmachine, hrest⟩ := Step.bind_eq_ok.mp hrest
  cases hmachine
  obtain ⟨code, u', hcode, hrest⟩ := Step.bind_eq_ok.mp hrest
  obtain ⟨hcode, rfl⟩ := Prod.ext_iff.mp hcode
  cases hrest
  exact ⟨listed, code, hlisted, hcode, rfl⟩

end

/-- A step asks the store for the digest of its text. -/
theorem exec_depends_of_input {n : Nat} (loc : Location) {paths : Expr} {action : Stmt}
    {s t : Machine} {text : String} (h : digestInput n paths action s = (.ok text, t)) :
    exec (n + 1) (.depends loc paths action) s =
      Step.mapError (Error.locate loc)
        (confirmOrRun n action s.frame.module s.frame.target (Digest.ofText text)) t :=
  exec_depends loc (by rw [digestOf_eq, Step.bind_run_ok h, Step.pure_run])

/-- Whenever two steps, in any two states, depend on the same paths, and one of the files is missing
for one of them only or has another size or another time since the epoch, the bytes they are digested
from differ. -/
theorem file_change_changes_input {n n' : Nat} {paths paths' : Expr} {action action' : Stmt}
    {s s' t t' : Machine} {listed : List String} {text text' : String}
    (hlisted : listedPaths n paths s = (.ok listed, t))
    (hlisted' : listedPaths n' paths' s' = (.ok listed, t'))
    (htext : digestInput n paths action s = (.ok text, t))
    (htext' : digestInput n' paths' action' s' = (.ok text', t'))
    (hchange : ∃ path ∈ listed,
      ((t.files.stat? path).map fun (size, modified) => (size, max 0 modified)) ≠
        (t'.files.stat? path).map fun (size, modified) => (size, max 0 modified)) :
    text.toUTF8 ≠ text'.toUTF8 := by
  intro hbytes
  obtain ⟨listed₁, code, hlisted₁, -, rfl⟩ := digestInput_eq_ok htext
  obtain ⟨listed₂, code', hlisted₂, -, rfl⟩ := digestInput_eq_ok htext'
  cases hlisted.symm.trans hlisted₁
  cases hlisted'.symm.trans hlisted₂
  obtain ⟨hfiles, -⟩ := dependencyText_inj.mp (String.toByteArray_inj.mp hbytes)
  obtain ⟨path, hmem, hne⟩ := hchange
  rw [← FileSystem.info?_eq_stat, ← FileSystem.info?_eq_stat] at hne
  exact hne (hfiles path hmem)

/-- A state with the given files. -/
def Machine.withEntries (entries : List (String × Node)) : Machine :=
  { Machine.blank with files := ⟨.dir entries 0, 0, some "/"⟩ }

/-- What the step `depends ("f") {}` lists and is digested from. -/
theorem digestInput_withEntries : ∃ code, ∀ entries,
    listedPaths 1 (.str "f") (.withEntries entries) = (.ok ["/f"], .withEntries entries) ∧
    digestInput 1 (.str "f") (.block ⟨"/m", 1⟩ []) (.withEntries entries) =
      (.ok (dependencyText (Machine.withEntries entries).files ["/f"] code), .withEntries entries) := by
  obtain ⟨code, hcode⟩ : ∃ code, Fingerprint.stmt (viewOf .blank) (.block ⟨"/m", 1⟩ []) = .ok code :=
    ⟨_, rfl⟩
  have hresolve : Machine.blank.run.resolve "f" = "/f" := by decide +kernel
  refine ⟨code, fun entries => ?_⟩
  have hlisted : listedPaths 1 (.str "f") (.withEntries entries) = (.ok ["/f"], .withEntries entries) := by
    rw [← hresolve]
    rfl
  refine ⟨hlisted, ?_⟩
  have hview : viewOf (.withEntries entries) = viewOf .blank := rfl
  rw [digestInput, Step.bind_run_ok hlisted,
    Step.bind_run_ok (show Step.state (Machine.withEntries entries) = (.ok _, _) from rfl), hview, hcode]
  rfl

/-- A file that was touched, one that has grown, and one that is gone. -/
theorem file_change_changes_input_touched :
    let before : Machine := .withEntries [("f", .file .empty 3)]
    ∀ after ∈ [Machine.withEntries [("f", .file .empty 5)], .withEntries [("f", .file "x".toUTF8 3)],
      .withEntries []],
    ∃ text text', (digestInput 1 (.str "f") (.block ⟨"/m", 1⟩ []) before).1 = .ok text ∧
      (digestInput 1 (.str "f") (.block ⟨"/m", 1⟩ []) after).1 = .ok text' ∧
      text.toUTF8 ≠ text'.toUTF8 := by
  obtain ⟨code, hinput⟩ := digestInput_withEntries
  have hdiffers (entries : List (String × Node))
      (hchange : (((Machine.withEntries [("f", .file .empty 3)]).files.stat? "/f").map
          fun (size, modified) => (size, max 0 modified)) ≠
        ((Machine.withEntries entries).files.stat? "/f").map
          fun (size, modified) => (size, max 0 modified)) :
      ∃ text text', (digestInput 1 (.str "f") (.block ⟨"/m", 1⟩ [])
          (.withEntries [("f", .file .empty 3)])).1 = .ok text ∧
        (digestInput 1 (.str "f") (.block ⟨"/m", 1⟩ []) (.withEntries entries)).1 = .ok text' ∧
        text.toUTF8 ≠ text'.toUTF8 :=
    ⟨_, _, congrArg Prod.fst (hinput _).2, congrArg Prod.fst (hinput _).2,
      file_change_changes_input (hinput _).1 (hinput _).1 (hinput _).2 (hinput _).2
        ⟨"/f", List.mem_singleton_self _, hchange⟩⟩
  simp only [List.forall_mem_cons]
  exact ⟨hdiffers _ (by decide +kernel), hdiffers _ (by decide +kernel),
    hdiffers _ (by decide +kernel), by simp⟩

/-- A file that is touched before the epoch can keep the bytes as they are. -/
theorem early_change_keeps_input :
    ¬ ∀ (n n' : Nat) (paths paths' : Expr) (action action' : Stmt) (s s' t t' : Machine)
      (listed : List String) (text text' : String),
      listedPaths n paths s = (.ok listed, t) → listedPaths n' paths' s' = (.ok listed, t') →
      digestInput n paths action s = (.ok text, t) →
      digestInput n' paths' action' s' = (.ok text', t') →
      (∃ path ∈ listed, t.files.stat? path ≠ t'.files.stat? path) → text.toUTF8 ≠ text'.toUTF8 := by
  intro h
  obtain ⟨code, hinput⟩ := digestInput_withEntries
  refine h _ _ _ _ _ _ _ _ _ _ _ _ _ (hinput [("f", .file .empty (-5))]).1
    (hinput [("f", .file .empty (-3))]).1 (hinput _).2 (hinput _).2
    ⟨"/f", List.mem_singleton_self _, by decide +kernel⟩ ?_
  exact congrArg String.toUTF8 (dependencyText_inj.mpr ⟨List.forall_mem_singleton.mpr rfl, rfl⟩)

end Kiln
