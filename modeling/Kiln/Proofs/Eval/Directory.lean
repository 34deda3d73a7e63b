import Kiln.Proofs.Eval.Recount
import Kiln.Proofs.Eval.Regime
import Kiln.Proofs.Path.Normal

/-!
# Kiln.Proofs.Eval.Directory — the working directory at every moment

A run that begins in a normal directory is in a normal one at every moment, and every path it reads
against the directory is normal.  There is one exception.  The directory of a module is its path up
to the last separator, which is empty for a file in the root; so while such a module is used, or run
as a build file, paths are read against nothing, and stay relative.
-/

namespace Kiln

/-- Nothing that the moment lies in is a file in the root. -/
def Moment.Grounded (moment : Moment) : Prop :=
  ∀ a ∈ moment.around, Path.directory a.path ≠ ""

/-- The working directory of the state, or the path of the module, is normal. -/
def Moment.Event.Normal : Moment.Event → Prop
  | .reaches s => Path.Normal s.run.cwd
  | .uses path | .starts path => Path.Normal path
  | .loads m _ => Path.Normal m.path
  | .asks => True

theorem Moment.grounded_within {a : Around} {moment : Moment} :
    (moment.within a).Grounded ↔ Path.directory a.path ≠ "" ∧ moment.Grounded :=
  List.forall_mem_cons

/-- What is read against a normal working directory is normal. -/
theorem Run.normal_resolve {r : Run} (h : Path.Normal r.cwd) (text : String) :
    Path.Normal (r.resolve text) :=
  h.absolute _

/-- So is the build file in the directory that is read. -/
theorem Run.normal_file {r : Run} (h : Path.Normal r.cwd) {text path : String}
    (hpath : path = r.resolve text ∨ path = Path.join (r.resolve text) "lickable") :
    Path.Normal path := by
  cases hpath with
  | inl hfile => exact hfile ▸ normal_resolve h text
  | inr hdir => exact hdir ▸ (normal_resolve h text).join (by decide)

/-- Every event of the moments that lie in no file of the root is normal. -/
def NormalAlong (es : List Moment) : Prop :=
  ∀ moment ∈ es, moment.Grounded → moment.event.Normal

namespace NormalAlong

variable {es fs : List Moment}

theorem here {e : Moment.Event} (h : e.Normal) : NormalAlong [.here e] := by
  intro moment hmem _
  obtain rfl := List.mem_singleton.mp hmem
  exact h

theorem append (h : NormalAlong es) (h' : NormalAlong fs) : NormalAlong (es ++ fs) := fun moment hmem =>
  (List.mem_append.mp hmem).elim (h moment) (h' moment)

theorem cons {e : Moment.Event} (h : e.Normal) (h' : NormalAlong es) : NormalAlong (.here e :: es) :=
  (here h).append h'

/-- What is inside of a file of the root does not count. -/
theorem within {a : Around} (h : Path.directory a.path ≠ "" → NormalAlong es) :
    NormalAlong (es.map (.within a)) := by
  intro moment hmem hgrounded
  obtain ⟨inner, hinner, rfl⟩ := List.mem_map.mp hmem
  obtain ⟨ha, hrest⟩ := Moment.grounded_within.mp hgrounded
  exact h ha inner hinner hrest

end NormalAlong

/-- Taking a module over keeps the directory. -/
theorem Loading.keeps_directory {s t : Machine} {path : String} {targets : Bool} {es : List Moment}
    (h : Loading s path targets es t) : t.run.cwd = s.run.cwd ∧
      ∀ moment ∈ es, ∀ u, moment.event = .reaches u → u.run.cwd = s.run.cwd := by
  cases h with
  | unread => simp
  | @taken m t es hnew hm hbinds hes =>
    refine ⟨hbinds.cwd, ?_⟩
    rcases hes with rfl | rfl <;> simp [Moment.here, hbinds.cwd, Machine.including]

theorem Loading.normal {s t : Machine} {path : String} {targets : Bool} {es : List Moment}
    (h : Loading s path targets es t) (hs : Path.Normal s.run.cwd) (hpath : Path.Normal path) :
    NormalAlong es := by
  cases h with
  | unread => simp [NormalAlong]
  | @taken m t es hnew hm hbinds hes =>
    have hstarts : NormalAlong es := by
      rcases hes with rfl | rfl
      · simp [NormalAlong]
      · exact .here hpath
    have ht : Path.Normal t.run.cwd := hbinds.cwd ▸ hs
    rw [← hm] at hpath
    exact .cons hpath (.cons hs (.cons ht hstarts))

/-- A module that is loaded in its own directory, and what it comes to. -/
theorem Loading.normal_inside {s t : Machine} {path : String} {targets : Bool} {es fs : List Moment}
    (h : Loading s path targets es t) (hs : s.run.cwd = Path.directory path)
    (hpath : Path.Normal path) (hfs : Path.Normal t.run.cwd → NormalAlong fs) {a : Around}
    (ha : a.path = path) :
    NormalAlong ((.here (.reaches s) :: (es ++ fs)).map (.within a)) := by
  refine .within fun hdir => ?_
  have hbelow : Path.Normal s.run.cwd := hs ▸ hpath.directory.resolve_left (ha ▸ hdir)
  exact .cons hbelow ((h.normal hbelow hpath).append (hfs (h.keeps_directory.1 ▸ hbelow)))

/-- A course that begins in a normal directory ends in one, and is in one at every moment that does
not lie in a file of the root. -/
theorem Course.normal {s t : Machine} {es : List Moment} (h : Course s es t)
    (hs : Path.Normal s.run.cwd) : Path.Normal t.run.cwd ∧ NormalAlong es := by
  induction h with
  | refl s => exact ⟨hs, by simp [NormalAlong]⟩
  | append _ _ ih ih' =>
    obtain ⟨ht, hes⟩ := ih hs
    obtain ⟨hu, hfs⟩ := ih' ht
    exact ⟨hu, hes.append hfs⟩
  | quiet hcalm =>
    rw [← hcalm.run] at hs
    exact ⟨hs, .here hs⟩
  | cd s text => exact ⟨Run.normal_resolve hs text, .here (Run.normal_resolve hs text)⟩
  | asks hrun _ _ =>
    rw [← hrun] at hs
    exact ⟨hs, .cons trivial (.here hs)⟩
  | returns _ ih => exact ⟨hs, (ih hs).2.append (.here hs)⟩
  | includes text hloading =>
    exact ⟨hloading.keeps_directory.1 ▸ hs, hloading.normal hs (Run.normal_resolve hs text)⟩
  | uses text hpath _ hloading _ ih =>
    have hnormal : Path.Normal _ := hpath ▸ Run.normal_resolve hs text
    have hinside := hloading.normal_inside (a := .used _) rfl hnormal (fun ht => (ih ht).2) rfl
    exact ⟨hs, .append (.append (.cons hnormal (.here hs)) hinside) (.here hs)⟩
  | runs text hpath hloading _ ih =>
    have hnormal := Run.normal_file hs hpath
    have hinside := hloading.normal_inside (a := .ran _) rfl hnormal (fun ht => (ih ht).2) rfl
    exact ⟨hs, hinside.append (.here hs)⟩

/-- In every run that begins in a normal directory, at every moment that lies in no file of the root,
in whichever build file that is, the working directory is normal, and so is every path read against
it; where a path leads does not depend on the directory the process started in. -/
theorem directory_normal_throughout (n : Nat) (m : Module) {cwd : String}
    (calls : List (String × List String)) (s : Machine) (hcwd : Path.Normal cwd) :
    ∀ moment ∈ moments n m cwd calls s, moment.Grounded → ∀ t, moment.event = .reaches t →
      Path.Normal t.run.cwd ∧ ∀ text, Path.Normal (t.run.resolve text) ∧
        ∀ start, FileSystem.fullPath? { t.files with start } (t.run.resolve text) =
          t.files.fullPath? (t.run.resolve text) := by
  intro moment hmem hgrounded t ht
  have hnormal : Path.Normal t.run.cwd := by
    rcases course_wholeRun n m cwd calls s with hnone | ⟨u, es, fs, hloading, hcourse, hmoments⟩
    · rw [hnone] at hmem
      cases hmem
    · rw [hmoments] at hmem
      obtain ⟨hu, hes⟩ := hloading.keeps_directory
      rcases List.mem_cons.mp hmem with rfl | hmem
      · cases ht
        exact hcwd
      · rcases List.mem_append.mp hmem with hmem | hmem
        · exact hes moment hmem t ht ▸ hcwd
        · have hevent := (hcourse.normal (hu ▸ hcwd)).2 moment hmem hgrounded
          rwa [ht] at hevent
  refine ⟨hnormal, fun text => ?_⟩
  have hresolve := Run.normal_resolve hnormal text
  refine ⟨hresolve, fun start => ?_⟩
  simp [FileSystem.fullPath?, hresolve.isAbsolute]

/-- A library in a directory of its own, which goes up one. -/
def Machine.besideLibrary : Machine :=
  { Machine.blank with
    files := ⟨.dir [("w", .dir [("lib", .dir [("m", .file "cd(\"..\");".toUTF8 3)] 0)] 0)] 0, 9,
      some "/"⟩ }

/-- `using "lib/m";` -/
def Module.usingLibrary : Module :=
  ⟨"/w/lickable", .empty, [], [.usingStmt ⟨"/w/lickable", 1⟩ (.str "lib/m")]⟩

/-- The run has come to a state in the directory. -/
def Moment.Event.isIn (dir : String) : Moment.Event → Bool
  | .reaches s => s.run.cwd = dir
  | _ => false

/-- While the library is used, paths are read against its directory. -/
theorem directory_normal_throughout_library :
    Path.Normal "/w" ∧ ∃ moment ∈ moments 9 .usingLibrary "/w" [] .besideLibrary,
      moment.around = [.used "/w/lib/m"] ∧ ∃ t, moment.event = .reaches t ∧
        t.run.cwd = "/w/lib" ∧ Path.Normal (t.run.resolve "../x") := by
  have hcwd : Path.Normal "/w" := ⟨["w"], by decide, rfl⟩
  have hfound : (moments 9 .usingLibrary "/w" [] .besideLibrary).any (fun moment =>
      moment.around = [.used "/w/lib/m"] && moment.event.isIn "/w/lib") = true := by decide +kernel
  obtain ⟨moment, hmem, hmoment⟩ := List.any_eq_true.mp hfound
  simp only [Bool.and_eq_true, decide_eq_true_eq] at hmoment
  obtain ⟨haround, hin⟩ := hmoment
  have hgrounded : moment.Grounded := by
    rw [Moment.Grounded, haround]
    decide
  cases hevent : moment.event with
  | reaches t =>
    rw [hevent] at hin
    have hnormal := directory_normal_throughout 9 .usingLibrary [] .besideLibrary hcwd moment hmem
      hgrounded t hevent
    have hdir : t.run.cwd = "/w/lib" := by simpa [Moment.Event.isIn] using hin
    exact ⟨hcwd, moment, hmem, haround, t, hevent, hdir, (hnormal.2 _).1⟩
  | _ =>
    rw [hevent] at hin
    cases hin

end Kiln
