import Kiln.Proofs.Eval.Directory
import Mathlib.Data.List.Nodup

/-!
# Kiln.Proofs.Eval.Loaded — what a run loads, and how often

Along a run the function table and the set of loaded modules only grow.  A module is taken over only
if its path is not in that set yet, and that puts it in, even if the module is then refused; so no
path is loaded twice, in whichever of the two ways, and every function of the table comes from a
module that was loaded with it.

A build file that is run by another one has a run of its own, so its moments do not count here.
-/

namespace Kiln

/-! ## The run itself -/

/-- The moment belongs to the run itself, and not to a build file that is run by it. -/
def Moment.isOwn (moment : Moment) : Bool :=
  moment.around.all fun
    | .used _ => true
    | .ran _ => false

/-- The events of the run itself, in order. -/
def ownEvents (es : List Moment) : List Moment.Event := (es.filter Moment.isOwn).map Moment.event

/-- The states among the events. -/
def statesOf (es : List Moment.Event) : List Machine :=
  es.filterMap fun
    | .reaches s => some s
    | _ => none

/-- The modules that are taken over, each with whether its targets are. -/
def loadedModules (es : List Moment.Event) : List (Module × Bool) :=
  es.filterMap fun
    | .loads m targets => some (m, targets)
    | _ => none

/-- The paths of the files whose top level is started. -/
def startedPaths (es : List Moment.Event) : List String :=
  es.filterMap fun
    | .starts path => some path
    | _ => none

/-- The paths of the modules that are taken over. -/
def loadedPaths (es : List Moment.Event) : List String := (loadedModules es).map fun p => p.1.path

theorem ownEvents_append (es fs : List Moment) :
    ownEvents (es ++ fs) = ownEvents es ++ ownEvents fs := by
  simp [ownEvents]

theorem ownEvents_within_used (es : List Moment) (path : String) :
    ownEvents (es.map (.within (.used path))) = ownEvents es := by
  rw [ownEvents, List.filter_map, List.map_map]
  rfl

theorem ownEvents_within_ran (es : List Moment) (path : String) :
    ownEvents (es.map (.within (.ran path))) = [] := by
  simp [ownEvents, List.filter_map, Function.comp_def, Moment.within, Moment.isOwn]

/-! ## Growing -/

/-- Nothing is lost of the function table and of the set of loaded modules. -/
structure Machine.Later (s t : Machine) : Prop where
  functions : t.run.functions.Extends s.run.functions
  included : t.run.included.Extends s.run.included

namespace Machine.Later

variable {s t u : Machine}

theorem trans (h : s.Later t) (h' : t.Later u) : s.Later u :=
  ⟨h.functions.trans h'.functions, h.included.trans h'.included⟩

theorem of_eq (hfunctions : t.run.functions = s.run.functions)
    (hincluded : t.run.included = s.run.included) : s.Later t := by
  constructor
  · rw [hfunctions]
    exact .refl _
  · rw [hincluded]
    exact .refl _

end Machine.Later

/-- What the events of a run add, from one state to another. -/
structure Accumulates (s : Machine) (es : List Moment.Event) (t : Machine) : Prop where
  later : s.Later t
  between : ∀ u ∈ statesOf es, s.Later u ∧ u.Later t
  ascends : (statesOf es).Pairwise Machine.Later
  new : ∀ path ∈ loadedPaths es,
    s.run.included.contains path = false ∧ t.run.included.contains path = true
  distinct : (loadedPaths es).Nodup
  starts : (startedPaths es).Sublist (loadedPaths es)
  origin : ∀ name f, t.run.functions.get? name = some f →
    s.run.functions.get? name = some f ∨
      ∃ p ∈ loadedModules es, f ∈ p.1.exported p.2 ∧ f.name = name

namespace Accumulates

variable {s t u : Machine} {es fs : List Moment.Event}

theorem append (h : Accumulates s es t) (h' : Accumulates t fs u) : Accumulates s (es ++ fs) u where
  later := h.later.trans h'.later
  between v hv := by
    rw [statesOf, List.filterMap_append] at hv
    rcases List.mem_append.mp hv with hv | hv
    · exact ⟨(h.between v hv).1, (h.between v hv).2.trans h'.later⟩
    · exact ⟨h.later.trans (h'.between v hv).1, (h'.between v hv).2⟩
  ascends := by
    rw [statesOf, List.filterMap_append]
    exact List.pairwise_append.mpr ⟨h.ascends, h'.ascends,
      fun a ha b hb => (h.between a ha).2.trans (h'.between b hb).1⟩
  new path hpath := by
    rw [loadedPaths, loadedModules, List.filterMap_append, List.map_append] at hpath
    rcases List.mem_append.mp hpath with hpath | hpath
    · exact ⟨(h.new path hpath).1, h'.later.included.contains (h.new path hpath).2⟩
    · refine ⟨?_, (h'.new path hpath).2⟩
      cases hs : s.run.included.contains path with
      | false => rfl
      | true => exact (h.later.included.contains hs).symm.trans (h'.new path hpath).1
  distinct := by
    rw [loadedPaths, loadedModules, List.filterMap_append, List.map_append]
    refine List.nodup_append.mpr ⟨h.distinct, h'.distinct, ?_⟩
    rintro path hpath _ hpath' rfl
    have ht := (h.new path hpath).2
    rw [(h'.new path hpath').1] at ht
    cases ht
  starts := by
    rw [startedPaths, loadedPaths, loadedModules, List.filterMap_append, List.filterMap_append,
      List.map_append]
    exact h.starts.append h'.starts
  origin name f hf := by
    rw [loadedModules, List.filterMap_append]
    rcases h'.origin name f hf with hf | ⟨p, hp, hf⟩
    · exact (h.origin name f hf).imp id fun ⟨p, hp, hf⟩ => ⟨p, List.mem_append_left _ hp, hf⟩
    · exact .inr ⟨p, List.mem_append_right _ hp, hf⟩

/-- The state is the same but for what is no part of the function table or the set of loaded
modules. -/
theorem reaches (hfunctions : t.run.functions = s.run.functions)
    (hincluded : t.run.included = s.run.included) : Accumulates s [.reaches t] t where
  later := .of_eq hfunctions hincluded
  between u hu := by
    obtain rfl := List.mem_singleton.mp hu
    exact ⟨.of_eq hfunctions hincluded, .of_eq rfl rfl⟩
  ascends := List.pairwise_singleton _ _
  new := by simp [loadedPaths, loadedModules]
  distinct := List.nodup_nil
  starts := .slnil
  origin name f hf := .inl (hfunctions ▸ hf)

theorem inDirectory (s : Machine) (dir : String) :
    Accumulates s [.reaches (s.inDirectory dir)] (s.inDirectory dir) := .reaches rfl rfl

/-- Nothing that is told of here. -/
theorem still (s : Machine) (hstates : statesOf es = []) (hloads : loadedModules es = [])
    (hstarts : startedPaths es = []) : Accumulates s es s where
  later := .of_eq rfl rfl
  between := by simp [hstates]
  ascends := by simp [hstates]
  new := by simp [loadedPaths, hloads]
  distinct := by simp [loadedPaths, hloads]
  starts := by simp [hstarts]
  origin _ _ := .inl

end Accumulates

/-- A module that was not loaded yet is taken over, and its top level may be started. -/
theorem Machine.Binds.accumulates {s t : Machine} {m : Module} {targets : Bool} {es : List Moment.Event}
    (h : (s.including m.path).Binds (m.exported targets) t)
    (hnew : s.run.included.contains m.path = false) (hes : es = [] ∨ es = [.starts m.path]) :
    Accumulates s ([.loads m targets, .reaches (s.including m.path), .reaches t] ++ es) t := by
  have hincluding : s.Later (s.including m.path) := ⟨.refl _, .insert () hnew⟩
  have ht : (s.including m.path).Later t := by
    refine ⟨h.kept, ?_⟩
    rw [h.included]
    exact .refl _
  have hstates : statesOf ([.loads m targets, .reaches (s.including m.path), .reaches t] ++ es) =
      [s.including m.path, t] := by
    rcases hes with rfl | rfl <;> rfl
  have hloads : loadedModules ([.loads m targets, .reaches (s.including m.path), .reaches t] ++ es) =
      [(m, targets)] := by
    rcases hes with rfl | rfl <;> rfl
  constructor
  case later => exact hincluding.trans ht
  case between =>
    rw [hstates]
    simp only [List.forall_mem_cons, List.not_mem_nil, false_imp_iff, implies_true, and_true]
    exact ⟨⟨hincluding, ht⟩, hincluding.trans ht, .of_eq rfl rfl⟩
  case ascends =>
    rw [hstates]
    simpa using ht
  case new =>
    rw [loadedPaths, hloads]
    intro path hpath
    obtain rfl := List.mem_singleton.mp hpath
    exact ⟨hnew, ht.included.contains (NameSet.contains_add.mpr (.inl rfl))⟩
  case distinct =>
    rw [loadedPaths, hloads]
    simp
  case starts =>
    rw [loadedPaths, hloads]
    rcases hes with rfl | rfl
    · exact List.nil_sublist _
    · exact .refl _
  case origin =>
    intro name f hf
    rw [hloads]
    exact (h.added name f hf).imp id fun hf => ⟨_, List.mem_singleton_self _, hf⟩

theorem Loading.accumulates {s t : Machine} {path : String} {targets : Bool} {es : List Moment}
    (h : Loading s path targets es t) : Accumulates s (ownEvents es) t := by
  cases h with
  | unread => exact .still s rfl rfl rfl
  | @taken m t es hnew hm hbinds hes =>
    subst hm
    rw [ownEvents_append]
    refine hbinds.accumulates hnew ?_
    rcases hes with rfl | rfl
    · exact .inl rfl
    · exact .inr rfl

theorem Course.accumulates {s t : Machine} {es : List Moment} (h : Course s es t) :
    Accumulates s (ownEvents es) t := by
  have happend {s t u : Machine} {es fs : List Moment} (h : Accumulates s (ownEvents es) t)
      (h' : Accumulates t (ownEvents fs) u) : Accumulates s (ownEvents (es ++ fs)) u :=
    ownEvents_append es fs ▸ h.append h'
  induction h with
  | refl s => exact .still s rfl rfl rfl
  | append _ _ ih ih' => exact happend ih ih'
  | quiet hcalm => exact .reaches (hcalm.run ▸ rfl) (hcalm.run ▸ rfl)
  | cd s text => exact .inDirectory s _
  | @asks s t hrun _ _ =>
    have hasks : Accumulates s [.asks] s := .still s rfl rfl rfl
    exact hasks.append (.reaches (hrun ▸ rfl) (hrun ▸ rfl))
  | @returns s t es _ ih => exact happend ih (.inDirectory t _)
  | includes text hloading => exact hloading.accumulates
  | @uses s t u text path es fs _ _ hloading _ ih =>
    have huses : Accumulates s [.uses path] s := .still s rfl rfl rfl
    have hmoves : Accumulates s [.uses path, .reaches (s.movingStore path)] (s.movingStore path) :=
      huses.append (.reaches rfl rfl)
    have hbelow : Accumulates (s.movingStore path) (ownEvents
        [.here (.reaches ((s.movingStore path).inDirectory (Path.directory path)))]) _ :=
      .inDirectory _ _
    have hinside := happend hbelow (happend hloading.accumulates ih)
    rw [← ownEvents_within_used _ path] at hinside
    exact happend (happend hmoves hinside) (.inDirectory u _)
  | @runs s t u text path es fs _ _ _ _ =>
    rw [ownEvents_append, ownEvents_within_ran]
    exact .reaches rfl rfl

/-- No two modules with one path are taken over. -/
theorem Accumulates.eq_of_path_eq {s t : Machine} {es : List Moment.Event} (h : Accumulates s es t)
    {p q : Module × Bool} (hp : p ∈ loadedModules es) (hq : q ∈ loadedModules es)
    (hpath : p.1.path = q.1.path) : p = q :=
  List.inj_on_of_nodup_map h.distinct hp hq hpath

/-- What the run of a root module adds to an empty function table. -/
theorem accumulates_wholeRun (n : Nat) (m : Module) (cwd : String)
    (calls : List (String × List String)) (s : Machine) :
    ∃ t, Accumulates (s.beginning cwd) (ownEvents (moments n m cwd calls s)) t ∧
      (moments n m cwd calls s ≠ [] → t = (wholeRun n m cwd calls s).2) := by
  rcases course_wholeRun n m cwd calls s with hnone | ⟨t, es, fs, hloading, hcourse, hmoments⟩
  · rw [hnone]
    exact ⟨_, .still _ rfl rfl rfl, fun hne => absurd rfl hne⟩
  · have hrest := hloading.accumulates.append hcourse.accumulates
    rw [← ownEvents_append] at hrest
    refine ⟨_, ?_, fun _ => rfl⟩
    rw [hmoments]
    exact Accumulates.append (.reaches rfl rfl) hrest

/-- The paths of modules that are taken over or started are normal as long as nothing of the root is
in between. -/
theorem normal_along_wholeRun (n : Nat) (m : Module) {cwd : String}
    (calls : List (String × List String)) (s : Machine) (hcwd : Path.Normal cwd)
    (hpath : Path.Normal m.path) : NormalAlong (moments n m cwd calls s) := by
  rcases course_wholeRun n m cwd calls s with hnone | ⟨t, es, fs, hloading, hcourse, hmoments⟩
  · simp [hnone, NormalAlong]
  · rw [hmoments]
    have ht : Path.Normal t.run.cwd := hloading.keeps_directory.1 ▸ hcwd
    exact .cons hcwd ((hloading.normal hcwd hpath).append (hcourse.normal ht).2)

/-- Along the run of a root module, at every moment and also after errors: a name that is bound stays
bound to the same function to the end; no path is started twice, and a path that is started is normal
unless the moment lies in a file of the root; and every target in the function table comes from a
module that was loaded with its targets, which no module is that was loaded by being used. -/
theorem loaded_once (n : Nat) (m : Module) {cwd : String} (calls : List (String × List String))
    (s : Machine) (hcwd : Path.Normal cwd) (hpath : Path.Normal m.path) :
    let es := ownEvents (moments n m cwd calls s)
    ((statesOf es).Pairwise (fun t u => u.run.functions.Extends t.run.functions) ∧
      ∀ t ∈ statesOf es, (wholeRun n m cwd calls s).2.run.functions.Extends t.run.functions) ∧
    ((startedPaths es).Nodup ∧
      ∀ moment ∈ moments n m cwd calls s, moment.Grounded → ∀ path, moment.event = .starts path →
        Path.Normal path) ∧
    ∀ t ∈ statesOf es, ∀ name f, t.run.functions.get? name = some f → f.isTarget = true →
      ∃ loaded, (loaded, true) ∈ loadedModules es ∧ f ∈ loaded.functions.values ∧ f.name = name ∧
        ∀ used, (used, false) ∈ loadedModules es → used.path ≠ loaded.path := by
  intro es
  obtain ⟨last, hes, hlast⟩ := accumulates_wholeRun n m cwd calls s
  have hend (t : Machine) (ht : t ∈ statesOf es) : last = (wholeRun n m cwd calls s).2 := by
    refine hlast fun hnone => ?_
    simp [es, hnone, ownEvents, statesOf] at ht
  refine ⟨⟨hes.ascends.imp fun h => h.functions, fun t ht => ?_⟩,
    ⟨hes.starts.nodup hes.distinct, fun moment hmem hgrounded path hstarts => ?_⟩,
    fun t ht name f hf htarget => ?_⟩
  · rw [← hend t ht]
    exact (hes.between t ht).2.functions
  · have hevent := normal_along_wholeRun n m calls s hcwd hpath moment hmem hgrounded
    rwa [hstarts] at hevent
  · -- The function is in the table at the end, too, and the table was empty at the beginning.
    obtain hnone | ⟨⟨loaded, targets⟩, hloaded, hexported, hname⟩ :=
      hes.origin name f ((hes.between t ht).2.functions name f hf)
    · cases hnone
    obtain ⟨hvalue, htargets⟩ := List.mem_filter.mp hexported
    obtain rfl : targets = true := by simpa [htarget] using htargets
    refine ⟨loaded, hloaded, hvalue, hname, fun used hused hsame => ?_⟩
    cases hes.eq_of_path_eq hused hloaded hsame

/-- A build file and two libraries that load each other. -/
def Machine.besideCircle : Machine :=
  { Machine.blank with
    files := ⟨.dir [("w", .dir [("a", .file "target t() {} include \"lickable\";".toUTF8 3),
      ("b", .file "target u() {} include \"./a\";".toUTF8 3)] 0)] 0, 9, some "/"⟩ }

/-- `include "a"; using "b"; include "../w/a";` -/
def Module.circle : Module :=
  let loc : Location := ⟨"/w/lickable", 1⟩
  ⟨"/w/lickable", .empty, [], [.includeStmt loc (.str "a"), .usingStmt loc (.str "b"),
    .includeStmt loc (.str "../w/a")]⟩

/-- Each of the three is started once, and there is a target of the included library. -/
theorem loaded_once_circle :
    let es := ownEvents (moments 9 .circle "/w" [] .besideCircle)
    startedPaths es = ["/w/lickable", "/w/a", "/w/b"] ∧ (startedPaths es).Nodup ∧
      ∃ t ∈ statesOf es, ∃ f, t.run.functions.get? "t" = some f ∧ f.isTarget = true ∧
        ∃ loaded, (loaded, true) ∈ loadedModules es ∧ f.name = "t" ∧
          ∀ used, (used, false) ∈ loadedModules es → used.path ≠ loaded.path := by
  intro es
  have hcwd : Path.Normal "/w" := ⟨["w"], by decide, rfl⟩
  have hpath : Path.Normal "/w/lickable" := ⟨["w", "lickable"], by decide, rfl⟩
  obtain ⟨-, ⟨hnodup, -⟩, horigin⟩ := loaded_once 9 .circle [] .besideCircle hcwd hpath
  have hbound : (statesOf es).any (fun t =>
      (t.run.functions.get? "t").any fun f => f.isTarget) = true := by decide +kernel
  obtain ⟨t, ht, hany⟩ := List.any_eq_true.mp hbound
  obtain ⟨f, hf, htarget⟩ := (Option.any_eq_true _ _).mp hany
  obtain ⟨loaded, hloaded, -, hname, hused⟩ := horigin t ht "t" f hf htarget
  exact ⟨by decide +kernel, hnodup, t, ht, f, hf, htarget, loaded, hloaded, hname, hused⟩

end Kiln
