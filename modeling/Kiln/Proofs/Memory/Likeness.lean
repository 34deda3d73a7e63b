import Kiln.Proofs.Abreast
import Kiln.Proofs.Memory.Shape

/-!
# Kiln.Proofs.Memory.Likeness — operations on alike values

What an operation that writes no cell makes of alike values is alike: two runs of it, in two memories,
fail in the same way or yield alike values.  The memories only grow, so all that was alike stays so.
-/

namespace Kiln.Memory

variable {m m' t t' : Memory} {v v' w w' : Value} {vs vs' : List Value}

/-- Memory may only grow, and its scopes stay as they are. -/
def allocating : Step.Law Memory where
  inv := WellFormed
  rel m m' := m.Extends m' ∧ m'.scopes = m.scopes
  refl m := ⟨.refl m, rfl⟩
  trans h h' := ⟨h.1.trans h'.1, h'.2.trans h.2⟩

theorem Alike.leads (h : Alike m m' v v') (hmt : allocating.Leads m t)
    (hmt' : allocating.Leads m' t') : Alike t t' v v' :=
  h.mono hmt.start hmt'.start hmt.rel.1 hmt'.rel.1

/-- All variables are as they were. -/
theorem getVar_of_leads (h : allocating.Leads m t) (s : ScopeId) (name : String) :
    t.getVar s name = m.getVar s name := by
  have hscope (s : ScopeId) : t.scope s = m.scope s := by rw [scope, scope, h.rel.2]
  have hfind : t.findVar s name = m.findVar s name := by simp only [findVar, hscope]
  rw [getVar, getVar, hfind]
  cases hc : m.findVar s name with
  | none => rfl
  | some c =>
    obtain ⟨home, -, hbinds⟩ := List.exists_of_findSome?_eq_some hc
    exact h.rel.1.read (h.start.bound hbinds)

/-- The two runs yield alike values. -/
abbrev YieldAlike (m m' : Memory) (f f' : Step Memory Value) : Prop :=
  f.Abreast allocating m m' f' fun v t v' t' => Alike t t' v v'

/-- The two runs yield the same. -/
abbrev YieldSame {α : Type} (m m' : Memory) (f f' : Step Memory α) : Prop :=
  f.Abreast allocating m m' f' fun a _ a' _ => a = a'

/-! ## New containers -/

theorem alike_all {vs vs' : List Value} (h : List.Forall₂ (Alike m m') vs vs') :
    (∀ v ∈ vs, m.Holds v) ∧ (∀ v ∈ vs', m'.Holds v) ∧
      ∀ n, vs.map (m.shape n) = vs'.map (m'.shape n) := by
  induction h with
  | nil => simp
  | cons hab _ ih =>
    obtain ⟨hleft, hright, hshape⟩ := ih
    refine ⟨List.forall_mem_cons.mpr ⟨hab.left, hleft⟩,
      List.forall_mem_cons.mpr ⟨hab.right, hright⟩, fun n => ?_⟩
    rw [List.map_cons, List.map_cons, hab.shape n, hshape n]

theorem leads_newArray (hm : m.WellFormed) (hvs : ∀ v ∈ vs, m.Holds v) :
    allocating.Leads m (newArray vs m).2 := by
  have htidy : (newArray vs).Obeys (tidy ⟨0⟩) m _ := tidy_newArray hm hvs
  exact ⟨hm, htidy.inv, extends_newArray vs m, by rw [newArray_run]; rfl⟩

theorem shape_newArray (hm : m.WellFormed) (hvs : ∀ v ∈ vs, m.Holds v) (n : Nat) :
    (newArray vs m).2.shape (n + 1) (.array ⟨m.arrays.size⟩) = .array (vs.map (m.shape n)) := by
  rw [shape, elements_newArray]
  refine congrArg Shape.array (List.map_congr_left fun v hv => ?_)
  exact (extends_newArray vs m).shape hm n (hvs v hv)

/-- Arrays of alike values are alike. -/
theorem yieldAlike_newArray (hm : m.WellFormed) (hm' : m'.WellFormed)
    (h : List.Forall₂ (Alike m m') vs vs') : YieldAlike m m' (newArray vs) (newArray vs') := by
  obtain ⟨hleft, hright, hshape⟩ := alike_all h
  refine .of_run (newArray_eq vs m) (newArray_eq vs' m') (leads_newArray hm hleft)
    (leads_newArray hm' hright) ⟨holds_newArray vs m, holds_newArray vs' m', fun n => ?_⟩
  cases n with
  | zero => rfl
  | succ n => rw [shape_newArray hm hleft, shape_newArray hm' hright, hshape n]

section Dictionaries

variable {pairs pairs' : List (String × Value)}

theorem leads_newDict (hm : m.WellFormed) (hpairs : ∀ p ∈ pairs, m.Holds p.2) :
    allocating.Leads m (newDict pairs m).2 := by
  have htidy : (newDict pairs).Obeys (tidy ⟨0⟩) m _ := tidy_newDict hm hpairs
  have hinv := htidy.inv
  obtain ⟨t, hrun, hextends, hscopes, -⟩ := newDict_contents pairs m
  rw [hrun] at hinv ⊢
  exact ⟨hm, hinv, hextends, hscopes⟩

theorem shape_newDict (hm : m.WellFormed) (hpairs : ∀ p ∈ pairs, m.Holds p.2) (n : Nat) :
    (newDict pairs m).2.shape (n + 1) (.dict ⟨m.dicts.size⟩) =
      .dict (Table.empty.withFirsts (pairs.map fun p => (p.1, m.shape n p.2))).entries := by
  obtain ⟨t, hrun, hextends, -, hcontents⟩ := newDict_contents pairs m
  have hsame : pairs.map (fun p => (p.1, t.shape n p.2)) =
      pairs.map fun p => (p.1, m.shape n p.2) :=
    List.map_congr_left fun p hp => by rw [hextends.shape hm n (hpairs p hp)]
  rw [hrun, shape, hcontents, Table.withFirsts_map, hsame]
  rfl

/-- Dictionaries of alike values under the same keys are alike. -/
theorem yieldAlike_newDict (hm : m.WellFormed) (hm' : m'.WellFormed)
    (h : List.Forall₂ (fun p p' => p.1 = p'.1 ∧ Alike m m' p.2 p'.2) pairs pairs') :
    YieldAlike m m' (newDict pairs) (newDict pairs') := by
  obtain ⟨hleft, hright, hshape⟩ : (∀ p ∈ pairs, m.Holds p.2) ∧ (∀ p ∈ pairs', m'.Holds p.2) ∧
      ∀ n, pairs.map (fun p => (p.1, m.shape n p.2)) =
        pairs'.map fun p => (p.1, m'.shape n p.2) := by
    induction h with
    | nil => simp
    | cons hab _ ih =>
      obtain ⟨hleft, hright, hshape⟩ := ih
      refine ⟨List.forall_mem_cons.mpr ⟨hab.2.left, hleft⟩,
        List.forall_mem_cons.mpr ⟨hab.2.right, hright⟩, fun n => ?_⟩
      rw [List.map_cons, List.map_cons, hab.1, hab.2.shape n, hshape n]
  refine .of_run (newDict_eq pairs m) (newDict_eq pairs' m') (leads_newDict hm hleft)
    (leads_newDict hm' hright) ⟨holds_newDict pairs m, holds_newDict pairs' m', fun n => ?_⟩
  cases n with
  | zero => rfl
  | succ n => rw [shape_newDict hm hleft, shape_newDict hm' hright, hshape n]

end Dictionaries

/-! ### Containers of texts -/

theorem holds_texts (texts : List String) : ∀ v ∈ texts.map Value.str, m.Holds v := by
  intro v hv
  obtain ⟨text, -, rfl⟩ := List.mem_map.mp hv
  trivial

theorem holds_bindings (t : Table String) : ∀ p ∈ (t.map Value.str).entries, m.Holds p.2 := by
  intro p hp
  obtain ⟨e, -, rfl⟩ := List.mem_map.mp hp
  trivial

theorem shape_newArray_texts (hm : m.WellFormed) (texts : List String) (n : Nat) :
    (newArray (texts.map .str) m).2.shape (n + 1) (.array ⟨m.arrays.size⟩) =
      .array (texts.map .str) := by
  rw [shape_newArray hm (holds_texts texts), List.map_map]
  simp only [Function.comp_def, shape_str]

theorem shape_newDict_texts (hm : m.WellFormed) (t : Table String) (n : Nat) :
    (newDict (t.map .str).entries m).2.shape (n + 1) (.dict ⟨m.dicts.size⟩) =
      .dict (t.map .str).entries := by
  have hshapes : ((t.map Value.str).entries.map fun p => (p.1, m.shape n p.2)) =
      (t.map Shape.str).entries := by
    simp [Table.map]
  rw [shape_newDict hm (holds_bindings t), hshapes, Table.withFirsts_entries]

/-! ## String forms -/

theorem yieldSame_treeOf (hm : m.WellFormed) (hm' : m'.WellFormed) (h : Alike m m' v v') :
    YieldSame m m' (treeOf v) (treeOf v') := by
  have htree := h.tree?_eq hm hm'
  cases ht : m.tree? v with
  | some t =>
    have hrun : treeOf v m = (.ok t, m) := by simp only [treeOf, ht]
    have hrun' : treeOf v' m' = (.ok t, m') := by simp only [treeOf, ← htree, ht]
    exact .of_run hrun hrun' (.refl hm) (.refl hm') rfl
  | none =>
    have hrun : treeOf v m = (.exhausted, m) := by simp only [treeOf, ht]
    have hrun' : treeOf v' m' = (.exhausted, m') := by simp only [treeOf, ← htree, ht]
    refine ⟨?_, ?_, ?_⟩
    · rw [hrun]
      exact .refl hm
    · rw [hrun']
      exact .refl hm'
    · rw [hrun, hrun']
      exact .exhausted

theorem yieldSame_textOf (hm : m.WellFormed) (hm' : m'.WellFormed) (h : Alike m m' v v') :
    YieldSame m m' (textOf v) (textOf v') := by
  have htext : YieldSame m m' (do let t ← treeOf v; return t.text)
      (do let t ← treeOf v'; return t.text) := by
    refine (yieldSame_treeOf hm hm' h).bind fun t t' u u' hmu hmu' ht => ?_
    exact .pure hmu.finish hmu'.finish (congrArg Tree.text ht)
  have hkind := h.sameKind
  cases hkind with
  | str s => exact .pure hm hm' rfl
  | _ => exact htext

/-! ## Operators -/

theorem yieldAlike_joined (hm : m.WellFormed) (hm' : m'.WellFormed) (hv : Alike m m' v v')
    (hw : Alike m m' w w') :
    YieldAlike m m' (do let values ← Step.look fun m => m.elements v ++ m.elements w; newArray values)
      (do let values ← Step.look fun m => m.elements v' ++ m.elements w'; newArray values) := by
  have hlook : Step.Abreast allocating m m' (Step.look fun m => m.elements v ++ m.elements w)
      (Step.look fun m => m.elements v' ++ m.elements w') fun vs t vs' t' =>
        List.Forall₂ (Alike t t') vs vs' :=
    .look hm hm' (List.rel_append (hv.elements hm hm') (hw.elements hm hm'))
  exact hlook.bind fun vs vs' t t' hmt hmt' hvs => yieldAlike_newArray hmt.finish hmt'.finish hvs

theorem yieldAlike_text {f : String → String} (hm : m.WellFormed) (hm' : m'.WellFormed)
    (h : Alike m m' v v') : YieldAlike m m' (do let s ← textOf v; return .str (f s))
      (do let s ← textOf v'; return .str (f s)) := by
  refine (yieldSame_textOf hm hm' h).bind fun s s' t t' hmt hmt' hs => ?_
  rw [hs]
  exact .pure hmt.finish hmt'.finish (.str _)

theorem yieldAlike_add (hm : m.WellFormed) (hm' : m'.WellFormed) (hv : Alike m m' v v')
    (hw : Alike m m' w w') : YieldAlike m m' (add v w) (add v' w') := by
  have hjoined := yieldAlike_joined hm hm' hv hw
  have hkind := hv.sameKind
  have hkind' := hw.sameKind
  cases hkind with
  | void => exact .pure hm hm' hw
  | array a a' =>
    cases hkind' with
    | void => exact .pure hm hm' hv
    | _ => exact hjoined
  | str s =>
    cases hkind' with
    | void => exact .pure hm hm' hv
    | array => exact hjoined
    | _ => exact yieldAlike_text hm hm' hw
  | int | dict =>
    cases hkind' with
    | void => exact .pure hm hm' hv
    | array => exact hjoined
    | str => exact yieldAlike_text hm hm' hv
    | int | dict => exact .pure hm hm' (.int _)

theorem yieldSame_order (hm : m.WellFormed) (hm' : m'.WellFormed) (hv : Alike m m' v v')
    (hw : Alike m m' w w') : YieldSame m m' (order v w) (order v' w') := by
  have htexts : YieldSame m m' (do let s ← textOf v; let t ← textOf w; return compare s t)
      (do let s ← textOf v'; let t ← textOf w'; return compare s t) := by
    refine (yieldSame_textOf hm hm' hv).bind fun s s' t t' hmt hmt' hs => ?_
    have hw := hw.leads hmt hmt'
    refine (yieldSame_textOf hmt.finish hmt'.finish hw).bind fun r r' u u' htu htu' hr => ?_
    exact .pure htu.finish htu'.finish (by rw [hs, hr])
  have hkind := hv.sameKind
  have hkind' := hw.sameKind
  cases hkind with
  | int =>
    cases hkind' with
    | int => exact .pure hm hm' rfl
    | _ => exact htexts
  | _ => exact htexts

theorem yieldAlike_index (hm : m.WellFormed) (hm' : m'.WellFormed) (h : Alike m m' v v')
    (i : Int32) : YieldAlike m m' (index v i) (index v' i) := by
  have hkind := h.sameKind
  cases hkind with
  | array a a' => exact .look hm hm' (h.element hm hm' i)
  | _ => exact .fault hm hm'

theorem yieldAlike_key (hm : m.WellFormed) (hm' : m'.WellFormed) (h : Alike m m' v v')
    (key : String) : YieldAlike m m' (Memory.key v key) (Memory.key v' key) := by
  have hkind := h.sameKind
  cases hkind with
  | dict d d' => exact .look hm hm' (h.entry hm hm' key)
  | _ => exact .fault hm hm'

end Kiln.Memory
