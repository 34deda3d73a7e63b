import Kiln.Proofs.Fingerprint.Hasher
import Kiln.Proofs.Memory.Acyclic

/-!
# Kiln.Proofs.Fingerprint.Recursion — fingerprints of recursive functions

Writing a fingerprint opens the body of every function that is called, unless the body is open
already.  Open bodies are skipped, so a name may be missed on one way that is found on another:
`ReachesPast` is reaching a name without going through the functions in progress, which is what the
fingerprint fails on (`isOk_stmtWith_iff`).  From the outermost statement every name that is reached
is reached past nothing (`Reaches.past`), because a way that comes through a function twice can be
cut short.
-/

namespace Kiln

namespace Stmt

variable {functions : Table Function} {name : String} {active active' : List String} {s : Stmt}

/-- The statement calls the function, itself or through bodies of functions that are not in progress,
each of which is in progress from there on. -/
inductive ReachesPast (functions : Table Function) (name : String) : List String → Stmt → Prop
  | here {active : List String} {s : Stmt} : .fn name ∈ s.mentions → name ∉ active →
    ReachesPast functions name active s
  | call {active : List String} {s : Stmt} {caller : String} {f : Function} :
    .fn caller ∈ s.mentions → caller ∉ active → functions.get? caller = some f →
    ReachesPast functions name (caller :: active) f.body → ReachesPast functions name active s

namespace ReachesPast

theorem reaches (h : ReachesPast functions name active s) : s.Reaches functions name := by
  induction h with
  | here hm _ => exact .here hm
  | call hm _ hf _ ih => exact .call hm hf ih

/-- With fewer functions in progress, no less is reached. -/
theorem mono (h : ReachesPast functions name active s) (hsub : active' ⊆ active) :
    ReachesPast functions name active' s := by
  induction h generalizing active' with
  | here hm hnew => exact .here hm fun h => hnew (hsub h)
  | call hm hnew hf _ ih =>
    exact .call hm (fun h => hnew (hsub h)) hf (ih (List.cons_subset_cons _ hsub))

/-- What is reached is reached without going through one more function, or from the body of that
function. -/
theorem avoid (h : ReachesPast functions name active s) {other : String} (hne : name ≠ other) :
    ReachesPast functions name (other :: active) s ∨ ∃ f, functions.get? other = some f ∧
      ReachesPast functions name (other :: active) f.body := by
  induction h with
  | here hm hnew => exact .inl (.here hm (List.not_mem_cons_of_ne_of_not_mem hne hnew))
  | @call active s caller f hm hnew hf hbody ih =>
    by_cases hcaller : caller = other
    · rw [hcaller] at hf hbody
      exact .inr ⟨f, hf, hbody⟩
    rcases ih with ih | ⟨g, hg, ih⟩
    · have hswap : caller :: other :: active ⊆ other :: caller :: active := by
        intro x hx
        simp only [List.mem_cons] at hx ⊢
        tauto
      exact .inl (.call hm (List.not_mem_cons_of_ne_of_not_mem hcaller hnew) hf (ih.mono hswap))
    · have hless : other :: active ⊆ other :: caller :: active :=
        List.cons_subset_cons _ (List.subset_cons_self _ _)
      exact .inr ⟨g, hg, ih.mono hless⟩

end ReachesPast

/-- A name without a function is reached without going through any function twice. -/
theorem Reaches.past (h : s.Reaches functions name) (hnone : functions.get? name = none) :
    ReachesPast functions name [] s := by
  induction h with
  | here hm => exact .here hm List.not_mem_nil
  | @call s caller f hm hf _ ih =>
    have hne : name ≠ caller := by
      rintro rfl
      rw [hf] at hnone
      cases hnone
    rcases ih.avoid hne with ih | ⟨g, hg, ih⟩
    · exact .call hm List.not_mem_nil hf ih
    · rw [hf] at hg
      cases hg
      exact .call hm List.not_mem_nil hf ih

end Stmt

namespace Fingerprint

variable {view : View}

/-- Inside of the bodies that are open, a fingerprint is written exactly if every name that is
reached past them has a function. -/
theorem isOk_stmtWith_iff {depth : Nat} {active : List String} {s : Stmt}
    (hroom : Room view.functions depth active)
    (hvalues : ∀ x, s.Reads view.functions x → ∃ t, view.value x = some t) :
    (stmtWith view (functionWithin view depth active) s).IsOk ↔
      ∀ name, Stmt.ReachesPast view.functions name active s →
        ∃ f, view.functions.get? name = some f := by
  rw [isOk_stmtWith]
  constructor
  · intro hknown name hreach
    cases hreach with
    | here hm hnew =>
      refine Option.ne_none_iff_exists'.mp fun hnone => ?_
      obtain ⟨text, htext⟩ := hknown _ hm
      rw [functionWithin_of_undefined hnew hnone] at htext
      cases htext
    | @call _ _ caller f hm hnew hf hbody =>
      obtain ⟨d, rfl, hopen⟩ := hroom.push hnew (Table.mem_keys_of_get? hf)
      have hok : (functionWithin view (d + 1) active caller).IsOk := hknown _ hm
      rw [functionWithin_succ hnew hf, Outcome.isOk_map,
        isOk_stmtWith_iff hopen fun x hx => hvalues x (.call hm hf hx)] at hok
      exact hok name hbody
  · intro hdefined m hm
    cases m with
    | var x => exact hvalues x (.here hm)
    | fn name =>
      show (functionWithin view depth active name).IsOk
      by_cases hactive : name ∈ active
      · rw [functionWithin_of_active (List.contains_iff_mem.mpr hactive)]
        exact Outcome.isOk_pure ""
      obtain ⟨f, hf⟩ := hdefined name (.here hm hactive)
      obtain ⟨d, rfl, hopen⟩ := hroom.push hactive (Table.mem_keys_of_get? hf)
      rw [functionWithin_succ hactive hf, Outcome.isOk_map,
        isOk_stmtWith_iff hopen fun x hx => hvalues x (.call hm hf hx)]
      exact fun g hg => hdefined g (.call hm hactive hf hg)
termination_by depth

/-- Opening more bodies than there are functions changes nothing. -/
theorem stmtWith_of_size_le {depth : Nat} (hdepth : view.functions.size ≤ depth) (s : Stmt) :
    stmtWith view (functionWithin view depth []) s = stmt view s := by
  have hroom : Room view.functions depth [] := ⟨.nil, nofun, hdepth⟩
  have hagrees : Agrees (· = ·) view view s := ⟨fun _ _ => rfl, fun _ _ => rfl⟩
  rw [stmt]
  refine stmtWith_rel congruence_eq s fun m hm => ?_
  cases m with
  | var x => rfl
  | fn name => exact functionWithin_rel congruence_eq hagrees hm hroom (.start _)

end Fingerprint

open Fingerprint

/-- A statement is read in a state in which no variable that it reads is inside of itself.  However
functions call each other, the fingerprint is settled; it fails exactly if a name without a function
is reached through calls.  Written piece by piece, it leaves the stack of functions in progress as it
was, whatever it starts from and however it ends; and where no function is in progress, it ends as the
fingerprint does as soon as it may open as many bodies as there are functions. -/
theorem fingerprint_of_recursion {m : Machine} {s : Stmt}
    (hvalues : ∀ x, s.Reads m.run.functions x →
      m.memory.Acyclic (m.memory.getVar m.frame.scope x)) :
    Fingerprint.stmt (Action.viewOf m) s ≠ .exhausted ∧
      ((∃ e, Fingerprint.stmt (Action.viewOf m) s = .error e) ↔
        ∃ name, s.Reaches m.run.functions name ∧ m.run.functions.get? name = none) ∧
      ∀ depth h, ∃ o fed, Hasher.stmt (Action.viewOf m) (Hasher.call (Action.viewOf m) depth) s h =
          (o, ⟨fed, h.active⟩) ∧
        (m.run.functions.size ≤ depth → h.active = [] →
          o = Hasher.ending (Fingerprint.stmt (Action.viewOf m) s) ∧
          ∀ text, Fingerprint.stmt (Action.viewOf m) s = .ok text → fed = h.fed ++ text) := by
  have htrees : ∀ x, s.Reads m.run.functions x → ∃ t, (Action.viewOf m).value x = some t :=
    fun x hx => (hvalues x hx).tree
  have hsettled : Fingerprint.stmt (Action.viewOf m) s ≠ .exhausted :=
    (fingerprint_of_agreement rfl (fun _ _ => rfl) fun _ _ => rfl).2 fun x hx => by
      obtain ⟨t, ht⟩ := htrees x hx
      rw [ht]
      exact Option.some_ne_none t
  have hok : (Fingerprint.stmt (Action.viewOf m) s).IsOk ↔ _ :=
    isOk_stmtWith_iff (.start m.run.functions) htrees
  refine ⟨hsettled, ⟨?_, ?_⟩, fun depth h => ?_⟩
  · rintro ⟨e, he⟩
    by_contra hnone
    obtain ⟨text, htext⟩ := hok.mpr fun name hname => by
      refine Option.ne_none_iff_exists'.mp fun hget => hnone ⟨name, hname.reaches, hget⟩
    rw [he] at htext
    cases htext
  · rintro ⟨name, hreaches, hnone⟩
    cases hend : Fingerprint.stmt (Action.viewOf m) s with
    | exhausted => exact absurd hend hsettled
    | error e => exact ⟨e, rfl⟩
    | ok text =>
      obtain ⟨f, hf⟩ := hok.mp ⟨text, hend⟩ name (hreaches.past hnone)
      cases hnone.symm.trans hf
  · obtain ⟨fed, hrun, hfed⟩ := Hasher.follows_stmt (Action.viewOf m)
      (Hasher.follows_call (Action.viewOf m) depth) s h
    refine ⟨_, fed, hrun, fun hdepth hactive => ?_⟩
    have hsame : stmtWith (Action.viewOf m) (functionWithin (Action.viewOf m) depth h.active) s =
        Fingerprint.stmt (Action.viewOf m) s := by
      rw [hactive]
      exact stmtWith_of_size_le hdepth s
    exact ⟨congrArg Hasher.ending hsame, fun text htext => hfed text (hsame.trans htext)⟩

/-- `function even() odd();` and `function odd() { even(); check(x); }`, and no function `check`. -/
def Machine.alternating : Machine :=
  { Machine.sharing with
    run := ⟨⟨[("even", ⟨"even", [], .expr ⟨"/m", 1⟩ (.call "odd" []), false⟩),
      ("odd", ⟨"odd", [], .block ⟨"/m", 2⟩ [.expr ⟨"/m", 2⟩ (.call "even" []),
        .expr ⟨"/m", 2⟩ (.call "check" [.var "x"])], false⟩)], by decide +kernel⟩, .empty, "/"⟩ }

/-- The call of `even` has no fingerprint, because `check` is reached; the stack of the two functions is
empty again when that is found out. -/
theorem fingerprint_of_recursion_alternating :
    (∃ e, Fingerprint.stmt (Action.viewOf .alternating) (.expr ⟨"/m", 3⟩ (.call "even" [])) =
      .error e) ∧
      ∃ o fed, Hasher.stmt (Action.viewOf .alternating)
        (Hasher.call (Action.viewOf .alternating) 2) (.expr ⟨"/m", 3⟩ (.call "even" [])) ⟨"", []⟩ =
          (o, ⟨fed, []⟩) := by
  have hvalues : ∀ x, Machine.alternating.memory.Acyclic
      (Machine.alternating.memory.getVar Machine.alternating.frame.scope x) := by
    intro x
    have hcells : ∀ i < Machine.alternating.memory.cells.size,
        Machine.alternating.memory.Holds (Machine.alternating.memory.read ⟨i⟩) := by decide
    exact Memory.acyclic_of_older hcells (by decide) rfl
      (Memory.holds_getVar (Memory.holds_read hcells) _ x)
  obtain ⟨-, hfails, hstack⟩ := @fingerprint_of_recursion .alternating
    (.expr ⟨"/m", 3⟩ (.call "even" [])) fun x _ => hvalues x
  obtain ⟨o, fed, hrun, -⟩ := hstack 2 ⟨"", []⟩
  refine ⟨hfails.mpr ⟨"check", ?_, rfl⟩, o, fed, hrun⟩
  have heven : Mention.fn "even" ∈ (Stmt.expr ⟨"/m", 3⟩ (.call "even" [])).mentions := by
    simp [Stmt.mentions, Expr.mentions]
  have hodd : Mention.fn "odd" ∈ (Stmt.expr ⟨"/m", 1⟩ (.call "odd" [])).mentions := by
    simp [Stmt.mentions, Expr.mentions]
  refine .call heven rfl (.call hodd rfl (.here ?_))
  simp [Stmt.mentions, Stmt.mentionsAll, Expr.mentions]

end Kiln
