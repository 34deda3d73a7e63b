import Kiln.Proofs.Eval.Recount
import Kiln.Proofs.Eval.Regime

/-!
# Kiln.Proofs.Eval.Placement — where the digest store is

Until the digest store is opened it moves beside every module that is used; from then on it stays.
So its place is settled by the module used last before the store was first asked or written to
successfully, and not by the first one.
-/

namespace Kiln

/-- The path of the digest store, and whether it is open. -/
structure Place where
  path : String
  isOpen : Bool
  deriving DecidableEq

/-- Where the digest store is in a state. -/
def Machine.place (s : Machine) : Place := ⟨s.session.store.path, s.session.store.isOpen⟩

/-- The place beside a module, unless the store is open. -/
def Place.moveTo (p : Place) (module : String) : Place :=
  if p.isOpen then p else ⟨Store.pathIn (Path.directory module), false⟩

namespace Machine

theorem place_inDirectory (s : Machine) (dir : String) : (s.inDirectory dir).place = s.place := rfl

theorem place_including (s : Machine) (path : String) : (s.including path).place = s.place := rfl

theorem place_beginning (s : Machine) (cwd : String) : (s.beginning cwd).place = s.place := rfl

theorem place_backTo (t s : Machine) : (t.backTo s).place = t.place := rfl

theorem place_movingStore (s : Machine) (path : String) :
    (s.movingStore path).place = s.place.moveTo path := by
  cases hopen : s.session.store.isOpen <;>
    simp [place, movingStore, Store.moveTo, Place.moveTo, hopen]

end Machine

/-! ## Along a course -/

/-- What an event makes of the place of the store.  Asking may open it. -/
inductive Place.Takes : Place → Moment.Event → Place → Prop where
  | reaches (s : Machine) : Takes s.place (.reaches s) s.place
  | uses (p : Place) (path : String) : Takes p (.uses path) (p.moveTo path)
  | loads (p : Place) (m : Module) (targets : Bool) : Takes p (.loads m targets) p
  | starts (p : Place) (path : String) : Takes p (.starts path) p
  | asks (p : Place) : Takes p .asks p
  | opens (path : String) : Takes ⟨path, false⟩ .asks ⟨path, true⟩

/-- The store comes from one place to another through the moments. -/
inductive Places : Place → List Moment → Place → Prop where
  | nil (p : Place) : Places p [] p
  | cons {p q r : Place} {moment : Moment} {es : List Moment} :
      p.Takes moment.event q → Places q es r → Places p (moment :: es) r

namespace Places

variable {p q r : Place} {es fs : List Moment}

theorem append (h : Places p es q) (h' : Places q fs r) : Places p (es ++ fs) r := by
  induction h with
  | nil => exact h'
  | cons htakes _ ih => exact .cons htakes (ih h')

/-- What the moments lie in does not matter. -/
theorem within (h : Places p es q) (a : Around) : Places p (es.map (.within a)) q := by
  induction h with
  | nil p => exact .nil p
  | cons htakes _ ih => exact .cons htakes ih

theorem here {e : Moment.Event} (h : p.Takes e q) : Places p [.here e] q := .cons h (.nil q)

theorem reaches {s : Machine} (h : s.place = p) : Places p [.here (.reaches s)] s.place :=
  here (h ▸ .reaches s)

end Places

theorem Loading.places {s t : Machine} {path : String} {targets : Bool} {es : List Moment}
    (h : Loading s path targets es t) : Places s.place es t.place := by
  cases h with
  | unread => exact .nil _
  | @taken m t es hnew hm hbinds hes =>
    have ht : t.place = (s.including path).place := by rw [Machine.place, hbinds.store, Machine.place]
    have hstarts : Places t.place es t.place := by
      rcases hes with rfl | rfl
      · exact .nil _
      · exact .here (.starts _ _)
    have hloads := Places.here (.loads s.place m targets)
    exact ((hloads.append (.reaches (s.place_including path))).append (.reaches ht)).append hstarts

theorem Course.places {s t : Machine} {es : List Moment} (h : Course s es t) :
    Places s.place es t.place := by
  induction h with
  | refl s => exact .nil _
  | append _ _ ih ih' => exact ih.append ih'
  | quiet hcalm => exact .reaches (by rw [Machine.place, hcalm.store, Machine.place])
  | cd s text => exact .reaches (s.place_inDirectory _)
  | @asks s t hrun hpath hopen =>
    have hplace : t.place = ⟨s.session.store.path, t.session.store.isOpen⟩ := by
      rw [Machine.place, hpath]
    have hasks : s.place.Takes .asks t.place := by
      rw [hplace, Machine.place]
      cases hs : s.session.store.isOpen with
      | true =>
        rw [hopen hs]
        exact .asks _
      | false =>
        cases t.session.store.isOpen with
        | true => exact .opens _
        | false => exact .asks _
    exact .cons hasks (.reaches rfl)
  | @returns s t es _ ih => exact ih.append (.reaches (t.place_inDirectory _))
  | includes text hloading => exact hloading.places
  | @uses s t u text path es fs hpath hnew hloading _ ih =>
    have hmoves := (Places.here (.uses s.place path)).append (.reaches (s.place_movingStore path))
    have hinside := Places.append (.reaches (Machine.place_inDirectory _ _)) (hloading.places.append ih)
    exact (hmoves.append (hinside.within (.used path))).append (.reaches (u.place_inDirectory _))
  | @runs s t u text path es fs hpath hloading _ ih =>
    have hinside := Places.append (.reaches (s.place_beginning _)) (hloading.places.append ih)
    exact (hinside.within (.ran path)).append (.reaches (u.place_backTo s))

/-! ## The place that counts -/

/-- The modules that are used, in order. -/
def usedModules (es : List Moment) : List String :=
  es.filterMap fun moment =>
    match moment.event with
    | .uses path => some path
    | _ => none

/-- The path of the digest store beside the module used last, or else beside `home`. -/
def storePath (home : String) (es : List Moment) : String :=
  Store.pathIn (Path.directory ((usedModules es).getLast?.getD home))

theorem storePath_uses (home path : String) (around : List Around) (es : List Moment) :
    storePath home (⟨around, .uses path⟩ :: es) = storePath path es := by
  simp [storePath, usedModules, List.getLast?_cons]

theorem storePath_cons {moment : Moment} (h : ∀ path, moment.event ≠ .uses path) (home : String)
    (es : List Moment) : storePath home (moment :: es) = storePath home es := by
  obtain ⟨around, event⟩ := moment
  cases event with
  | uses path => exact absurd rfl (h path)
  | _ => rfl

/-- The store is closed and moves with the modules that are used through the first part of the
moments; then it is opened, and it stays where it is. -/
structure Settles (home : String) (before after : List Moment) : Prop where
  moves : ∀ front moment rest t, before = front ++ moment :: rest → moment.event = .reaches t →
    t.place = ⟨storePath home front, false⟩
  opens : after = [] ∨ ∃ front around, before = front ++ [⟨around, .asks⟩]
  stays : ∀ moment ∈ after, ∀ t, moment.event = .reaches t → t.place = ⟨storePath home before, true⟩

namespace Settles

variable {home : String} {moment : Moment} {before after : List Moment}

theorem nil (home : String) : Settles home [] [] := ⟨by simp, .inl rfl, by simp⟩

/-- The store is opened at once. -/
theorem opened (around : List Around)
    (h : ∀ moment ∈ after, ∀ t, moment.event = .reaches t → t.place = ⟨storePath home [], true⟩) :
    Settles home [⟨around, .asks⟩] after where
  moves front moment rest t hsplit ht := by
    have hmem : moment ∈ [⟨around, .asks⟩] := by simp [hsplit]
    obtain rfl := List.mem_singleton.mp hmem
    cases ht
  opens := .inr ⟨[], around, rfl⟩
  stays := h

/-- One more moment at the start, after which the store is beside `next`. -/
theorem cons {next : String} (h : Settles next before after)
    (hpath : ∀ es, storePath home (moment :: es) = storePath next es)
    (hplace : ∀ t, moment.event = .reaches t → t.place = ⟨storePath home [], false⟩) :
    Settles home (moment :: before) after where
  moves front moment' rest t hsplit ht := by
    cases front with
    | nil =>
      obtain ⟨rfl, -⟩ := List.cons.inj hsplit
      exact hplace t ht
    | cons first front =>
      obtain ⟨rfl, hrest⟩ := List.cons.inj hsplit
      rw [hpath]
      exact h.moves front moment' rest t hrest ht
  opens := h.opens.imp id fun ⟨front, around, hfront⟩ => ⟨moment :: front, around, by rw [hfront]; rfl⟩
  stays moment' hmem t ht := by
    rw [hpath]
    exact h.stays moment' hmem t ht

end Settles

/-- An open store stays where it is. -/
theorem Places.stays {p q : Place} {es : List Moment} (h : Places p es q) (hp : p.isOpen = true) :
    ∀ moment ∈ es, ∀ t, moment.event = .reaches t → t.place = p := by
  induction h with
  | nil => simp
  | @cons p q r moment es htakes _ ih =>
    have hq : q = p ∧ ∀ t, moment.event = .reaches t → t.place = p := by
      obtain ⟨around, event⟩ := moment
      cases htakes with
      | reaches s => exact ⟨rfl, by rintro t ⟨⟩; rfl⟩
      | uses _ path => exact ⟨by simp [Place.moveTo, hp], by simp⟩
      | opens path => cases hp
      | _ => exact ⟨rfl, by simp⟩
    obtain ⟨rfl, hhere⟩ := hq
    exact List.forall_mem_cons.mpr ⟨hhere, ih hp⟩

/-- A closed store that is beside `home` settles. -/
theorem Places.settles {home : String} {q : Place} {es : List Moment}
    (h : Places ⟨storePath home [], false⟩ es q) :
    ∃ before after, es = before ++ after ∧ Settles home before after := by
  induction es generalizing home with
  | nil => exact ⟨[], [], rfl, .nil home⟩
  | cons moment es ih =>
    obtain ⟨around, event⟩ := moment
    cases h with
    | cons htakes hrest =>
      generalize hp : (⟨storePath home [], false⟩ : Place) = p at htakes
      cases htakes with
      | opens path =>
        cases hp
        exact ⟨[⟨around, .asks⟩], es, rfl, .opened around (hrest.stays rfl)⟩
      | uses _ path =>
        rw [← hp] at hrest
        have hnext : Places ⟨storePath path [], false⟩ es q := hrest
        obtain ⟨before, after, rfl, hsettles⟩ := ih hnext
        exact ⟨_ :: before, after, rfl, hsettles.cons (storePath_uses home path around) (by simp)⟩
      | reaches s =>
        rw [← hp] at hrest
        obtain ⟨before, after, rfl, hsettles⟩ := ih hrest
        refine ⟨_ :: before, after, rfl, hsettles.cons (storePath_cons (by simp) home) ?_⟩
        rintro t ⟨⟩
        exact hp.symm
      | _ =>
        rw [← hp] at hrest
        obtain ⟨before, after, rfl, hsettles⟩ := ih hrest
        exact ⟨_ :: before, after, rfl, hsettles.cons (storePath_cons (by simp) home) (by simp)⟩

/-- The digest store of a run that starts beside its root module.  Until it is opened it is closed
beside the module that was used last so far, or beside the root module if none was.  Asking it or
writing to it opens it there, unless that fails; and from then on no module that is used moves it. -/
theorem store_settles_beside_last_used (n : Nat) (m : Module) (cwd : String)
    (calls : List (String × List String)) (s : Machine)
    (hpath : s.session.store.path = Store.pathIn (Path.directory m.path))
    (hclosed : s.session.store.isOpen = false) :
    ∃ before after, moments n m cwd calls s = before ++ after ∧ Settles m.path before after := by
  have hplace : s.place = ⟨storePath m.path [], false⟩ := by
    rw [Machine.place, hpath, hclosed]
    rfl
  rcases course_wholeRun n m cwd calls s with hnone | ⟨t, es, fs, hloading, hcourse, hmoments⟩
  · exact ⟨[], [], hnone, .nil _⟩
  · have hplaces := Places.append (.reaches (s.place_beginning cwd))
      (hloading.places.append hcourse.places)
    rw [hplace] at hplaces
    exact hmoments ▸ hplaces.settles

/-- Two libraries, each in a directory of its own. -/
def Machine.besideTwo : Machine :=
  { Machine.blank with
    files := ⟨.dir [("w", .dir [("a", .dir [("m", .file .empty 3)] 0),
      ("b", .dir [("m", .file .empty 3)] 0)] 0)] 0, 9, some "/"⟩
    session := .inDir "/w" false }

/-- `using "a/m"; using "b/m"; depends ([]) print(1);` -/
def Module.usingTwo : Module :=
  let loc : Location := ⟨"/w/lickable", 1⟩
  ⟨"/w/lickable", .empty, [], [.usingStmt loc (.str "a/m"), .usingStmt loc (.str "b/m"),
    .depends loc (.array []) (.expr loc (.builtin .print [.const (.int 1)]))]⟩

/-- The run has come to a state with the store in a place. -/
def Moment.Event.isPlaced (place : Place) : Moment.Event → Bool
  | .reaches s => s.place = place
  | _ => false

/-- The store is opened beside the library that is used last, not beside the first one. -/
theorem store_settles_beside_last_used_of_two :
    ∃ before after, moments 9 .usingTwo "/w" [] .besideTwo = before ++ after ∧
      Settles "/w/lickable" before after ∧ after ≠ [] ∧
      storePath "/w/lickable" before = "/w/b/.lick/hashstore" := by
  have hopened : (moments 9 .usingTwo "/w" [] .besideTwo).any (fun moment =>
      moment.event.isPlaced ⟨"/w/b/.lick/hashstore", true⟩) = true := by decide +kernel
  obtain ⟨before, after, hmoments, hsettles⟩ :=
    store_settles_beside_last_used 9 .usingTwo "/w" [] .besideTwo rfl rfl
  refine ⟨before, after, hmoments, hsettles, ?_⟩
  obtain ⟨moment, hmem, hplace⟩ := List.any_eq_true.mp hopened
  cases hevent : moment.event with
  | reaches t =>
    simp only [hevent, Moment.Event.isPlaced, decide_eq_true_eq] at hplace
    rw [hmoments] at hmem
    rcases List.mem_append.mp hmem with hmem | hmem
    · obtain ⟨front, rest, hsplit⟩ := List.append_of_mem hmem
      have hclosed := hsettles.moves front moment rest t hsplit hevent
      simp [hplace] at hclosed
    · have hopen := hsettles.stays moment hmem t hevent
      rw [hplace] at hopen
      exact ⟨List.ne_nil_of_mem hmem, (Place.mk.inj hopen).1.symm⟩
  | _ => simp [hevent, Moment.Event.isPlaced] at hplace

end Kiln
