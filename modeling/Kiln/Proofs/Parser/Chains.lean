import Kiln.Proofs.Parser.RoundTrip
import Kiln.Proofs.Parser.Termination

/-!
# Kiln.Proofs.Parser.Chains — operators in a row

What is read of operands with operators between them.  The tree is split at the leftmost of the
operators that bind loosest (`Expr.chain`), and reading at a level takes the longest front part in
which every operator binds at that level or tighter.

Reading climbs: the right side of an operator is read at the operator's own level, and then the loop
goes on at the level it was called with.  What it has read so far stands before it as one operand, so
the climb is followed by one equation of the trees (`Expr.chain_group`): an operator, the tighter ones
behind it, and then a looser one.
-/

namespace Kiln

/-! ## The tree of a chain -/

/-- An operator, or the compound assignment with it, and the operand behind it. -/
structure Link where
  op : BinaryOp
  compound : Bool
  operand : Expr

namespace Link

/-- How tight the operator binds; a compound assignment binds like its operator. -/
def level (l : Link) : Nat := l.op.level

/-- The text of the operator. -/
def sign (l : Link) : String := if l.compound then l.op.text ++ "=" else l.op.text

/-- The expression of the operator between two operands. -/
def join (l : Link) (left right : Expr) : Expr := l.op.join l.compound left right

/-- The longest front part of the links in which every operator binds at the level or tighter. -/
def tight (level : Nat) (links : List Link) : List Link := links.takeWhile (level ≤ ·.level)

/-- The links behind that part. -/
def loose (level : Nat) (links : List Link) : List Link := links.dropWhile (level ≤ ·.level)

section Front

variable {level : Nat} {links : List Link}

theorem tight_append_loose (level : Nat) (links : List Link) :
    tight level links ++ loose level links = links :=
  List.takeWhile_append_dropWhile

theorem le_of_mem_tight {l : Link} (h : l ∈ tight level links) : level ≤ l.level := by
  simpa using List.mem_takeWhile_imp h

theorem lt_of_head_loose {l : Link} (h : l ∈ (loose level links).head?) : l.level < level := by
  have hfails := List.head?_dropWhile_not (fun l : Link => decide (level ≤ l.level)) links
  rw [show List.dropWhile _ links = loose level links from rfl, h] at hfails
  simpa using hfails

theorem tight_zero (links : List Link) : tight 0 links = links :=
  List.takeWhile_eq_self_iff.mpr fun _ _ => by simp

theorem loose_zero (links : List Link) : loose 0 links = [] :=
  List.dropWhile_eq_nil_iff.mpr fun _ _ => by simp

end Front

/-- Links cut at one of them. -/
structure Cut where
  before : List Link
  lowest : Link
  after : List Link

/-- The links cut at the leftmost of those with the lowest level, if there is a link at all. -/
def cut? : List Link → Option Cut
  | [] => none
  | l :: rest =>
    match cut? rest with
    | none => some ⟨[], l, rest⟩
    | some c =>
      if c.lowest.level < l.level then some { c with before := l :: c.before } else some ⟨[], l, rest⟩

theorem cut?_eq_none {links : List Link} : cut? links = none ↔ links = [] := by
  cases links with
  | nil => simp [cut?]
  | cons l rest =>
    rw [cut?]
    split
    · simp
    · split <;> simp

/-- What cutting finds: everything before it is tighter, and nothing behind it is looser. -/
theorem cut?_eq_some {links : List Link} {c : Cut} (h : cut? links = some c) :
    links = c.before ++ c.lowest :: c.after ∧ (∀ b ∈ c.before, c.lowest.level < b.level) ∧
      ∀ a ∈ c.after, c.lowest.level ≤ a.level := by
  induction links generalizing c with
  | nil => cases h
  | cons l rest ih =>
    rw [cut?] at h
    cases hrest : cut? rest with
    | none =>
      rw [hrest] at h
      cases h
      rw [cut?_eq_none.mp hrest]
      exact ⟨rfl, nofun, nofun⟩
    | some d =>
      obtain ⟨hlinks, hbefore, hafter⟩ := ih hrest
      rw [hrest] at h
      dsimp only at h
      split at h
      · rename_i hlower
        cases h
        exact ⟨by rw [hlinks]; rfl, List.forall_mem_cons.mpr ⟨hlower, hbefore⟩, hafter⟩
      · rename_i hlower
        cases h
        refine ⟨rfl, nofun, fun a ha => ?_⟩
        have hle : l.level ≤ d.lowest.level := Nat.not_lt.mp hlower
        rw [hlinks, List.mem_append, List.mem_cons] at ha
        rcases ha with ha | rfl | ha
        · exact Nat.le_trans hle (Nat.le_of_lt (hbefore a ha))
        · exact hle
        · exact Nat.le_trans hle (hafter a ha)

/-- There is no other place with what cutting finds. -/
theorem cut?_append {before after : List Link} {l : Link}
    (hbefore : ∀ b ∈ before, l.level < b.level) (hafter : ∀ a ∈ after, l.level ≤ a.level) :
    cut? (before ++ l :: after) = some ⟨before, l, after⟩ := by
  induction before with
  | nil =>
    rw [List.nil_append, cut?]
    split
    · rfl
    · rename_i c hc
      obtain ⟨rfl, -, -⟩ := cut?_eq_some hc
      have hle : l.level ≤ c.lowest.level := hafter c.lowest (by simp)
      rw [if_neg (Nat.not_lt.mpr hle)]
  | cons b before ih =>
    obtain ⟨hb, hbefore⟩ := List.forall_mem_cons.mp hbefore
    rw [List.cons_append, cut?, ih hbefore]
    exact if_pos hb

/-- The token is the operator of the link: one between two operands that needs no closing bracket, or
a compound assignment with it whose text is no operator of its own. -/
structure Signs (l : Link) (t : Token) : Prop where
  kind : t.kind = .op
  text : t.text = l.sign
  op : l.op ≠ .subscript
  compound : l.compound = true → ∀ op : BinaryOp, op.text ≠ l.sign

end Link

namespace Expr

open Link

/-- The tree of an operand and the links behind it: what stands before the leftmost of the loosest
operators is its left side, and everything behind it its right side. -/
def chain (first : Expr) (links : List Link) : Expr :=
  match _h : cut? links with
  | none => first
  | some c => c.lowest.join (chain first c.before) (chain c.lowest.operand c.after)
termination_by links.length
decreasing_by
  all_goals
    have hlinks := congrArg List.length (cut?_eq_some _h).1
    simp only [List.length_append, List.length_cons] at hlinks
    omega

variable {first : Expr} {l : Link}

theorem chain_nil (first : Expr) : chain first [] = first := by
  rw [chain]
  rfl

theorem chain_split {before after : List Link} (hbefore : ∀ b ∈ before, l.level < b.level)
    (hafter : ∀ a ∈ after, l.level ≤ a.level) : chain first (before ++ l :: after) =
      l.join (chain first before) (chain l.operand after) := by
  have hcut := cut?_append hbefore hafter
  rw [chain]
  split
  · rename_i hnone
    rw [hcut] at hnone
    cases hnone
  · rename_i c hc
    rw [hcut] at hc
    cases hc
    rfl

/-- An operator, operators that are not looser, and then one that is looser: the first and what it
binds are one operand for the rest. -/
theorem chain_group {tight rest : List Link} (htight : ∀ m ∈ tight, l.level ≤ m.level)
    (hrest : ∀ m ∈ rest.head?, m.level < l.level) : chain first (l :: (tight ++ rest)) =
      chain (l.join first (chain l.operand tight)) rest := by
  induction hlength : rest.length using Nat.strong_induction_on generalizing rest with
  | _ k ih =>
    cases hcut : cut? rest with
    | none =>
      have hsplit : chain first ([] ++ l :: tight) = l.join (chain first []) (chain l.operand tight) :=
        chain_split nofun htight
      rw [cut?_eq_none.mp hcut, List.append_nil, chain_nil, ← List.nil_append (l :: tight), hsplit,
        chain_nil]
    | some c =>
      obtain ⟨hlinks, hbefore, hafter⟩ := cut?_eq_some hcut
      have hhead : ∀ m ∈ c.before.head?, m.level < l.level := by
        intro m hm
        refine hrest m ?_
        rw [hlinks, List.head?_append, Option.mem_def.mp hm]
        rfl
      have hlowest : c.lowest.level < l.level := by
        cases hb : c.before with
        | nil => exact hrest _ (by rw [hlinks, hb]; rfl)
        | cons b bs =>
          have hlower : c.lowest.level < b.level := hbefore b (by rw [hb]; exact List.mem_cons_self)
          have hb : b.level < l.level := hhead b (by rw [hb]; rfl)
          omega
      have hfront : ∀ b ∈ l :: (tight ++ c.before), c.lowest.level < b.level := by
        refine List.forall_mem_cons.mpr ⟨hlowest, List.forall_mem_append.mpr ⟨fun b hb => ?_, hbefore⟩⟩
        exact Nat.lt_of_lt_of_le hlowest (htight b hb)
      have hshorter : c.before.length < k := by
        rw [← hlength, hlinks, List.length_append, List.length_cons]
        omega
      calc chain first (l :: (tight ++ rest))
          = chain first ((l :: (tight ++ c.before)) ++ c.lowest :: c.after) := by
            rw [hlinks, List.cons_append, List.append_assoc]
        _ = c.lowest.join (chain first (l :: (tight ++ c.before)))
              (chain c.lowest.operand c.after) := chain_split hfront hafter
        _ = c.lowest.join (chain (l.join first (chain l.operand tight)) c.before)
              (chain c.lowest.operand c.after) := by rw [ih _ hshorter hhead rfl]
        _ = chain (l.join first (chain l.operand tight)) rest := by
            rw [hlinks, chain_split hbefore hafter]

end Expr

namespace Parser

variable {α β : Type} {a : α} {b : β} {before between after : List Token} {t : Token}

/-! ## Bounds that are large enough -/

/-- Where the words `before` come next, `p` with any bound that is large enough yields `a` and leaves
the words `after`. -/
def Finds (p : Nat → Parser α) (a : α) (before after : List Token) : Prop :=
  ∀ stop s, Stream.Ahead stop before s →
    ∃ s', (∃ n, ∀ m, n ≤ m → p m s = (.ok a, s')) ∧ Stream.Ahead stop after s'

theorem Reads.finds {p : Parser α} (h : Reads p a before after) : Finds (fun _ => p) a before after := by
  intro stop s hs
  obtain ⟨s', hrun, hs'⟩ := h stop s hs
  exact ⟨s', ⟨0, fun _ _ => hrun⟩, hs'⟩

theorem Finds.bind {p : Nat → Parser α} {f : Nat → α → Parser β} (hp : Finds p a before between)
    (hf : Finds (f · a) b between after) : Finds (fun n => p n >>= f n) b before after := by
  intro stop s hs
  obtain ⟨s', ⟨n, hrun⟩, hs'⟩ := hp stop s hs
  obtain ⟨s'', ⟨n', hrun'⟩, hs''⟩ := hf stop s' hs'
  refine ⟨s'', ⟨max n n', fun m hm => ?_⟩, hs''⟩
  exact (Step.bind_run_ok (hrun m (by omega)) (f m)).trans (hrun' m (by omega))

theorem Finds.succ {p : Nat → Parser α} (h : Finds (fun n => p (n + 1)) a before after) :
    Finds p a before after := by
  intro stop s hs
  obtain ⟨s', ⟨n, hrun⟩, hs'⟩ := h stop s hs
  refine ⟨s', ⟨n + 1, fun m hm => ?_⟩, hs'⟩
  obtain ⟨k, rfl⟩ : ∃ k, m = k + 1 := ⟨m - 1, by omega⟩
  exact hrun k (by omega)

/-- The bound that the text supplies is large enough. -/
theorem finds_expression {level : Nat} {e : Expr} :
    Finds (expressionWithin · level) e before after ↔ Reads (expression level) e before after := by
  constructor
  · intro h stop s hs
    obtain ⟨s', ⟨n, hrun⟩, hs'⟩ := h stop s hs
    have hends := (ends_expression s level).1.stable _ (Nat.le_max_right n s.depthBound)
    refine ⟨s', ?_, hs'⟩
    show expressionWithin s.depthBound level s = _
    rw [← hends]
    exact hrun _ (Nat.le_max_left n s.depthBound)
  · intro h stop s hs
    obtain ⟨s', hrun, hs'⟩ := h stop s hs
    refine ⟨s', ⟨s.depthBound, fun m hm => ?_⟩, hs'⟩
    exact ((ends_expression s level).1.stable m hm).trans hrun

/-! ## Words of a chain -/

/-- A literal, a name or an expression in parentheses stands at the start of the words `before`, and
`after` is what follows it. -/
inductive Operand : Expr → List Token → List Token → Prop where
  | num {t : Token} (ht : t.kind = .num) (ts : List Token) :
    Operand (.const (.int (Text.Numeral.literal t.text))) (t :: ts) ts
  | str {t : Token} (ht : t.kind = .str) (ts : List Token) : Operand (.str t.text) (t :: ts) ts
  | name {t : Token} (ht : t.kind = .name) (ts : List Token) : Operand (.var t.text) (t :: ts) ts
  | bracketed {e : Expr} {opening closing : Token} {ts us : List Token} (ho : opening.kind = .punct)
    (htext : opening.text = "(") (hc : closing.reads ")" = true)
    (h : Reads (expression 0) e ts (closing :: us)) : Operand e (opening :: ts) us

/-- The links stand at the start of the words `before`, and `after` is what follows them. -/
inductive Linked : List Link → List Token → List Token → Prop where
  | nil (ts : List Token) : Linked [] ts ts
  | cons {l : Link} {links : List Link} {t : Token} {before between after : List Token}
    (hsign : l.Signs t) (hoperand : Operand l.operand before between)
    (hlinks : Linked links between after) : Linked (l :: links) (t :: before) after

/-- An operand ends in front of the token. -/
structure Limits (t : Token) : Prop where
  call : t.reads "(" = false
  bump : Stays t

/-- An expression that is read at the level ends in front of the token. -/
structure Stops (level : Nat) (t : Token) : Prop extends Limits t where
  sign : t.kind = .op ∨ t.kind = .punct → t.text ≠ "." ∧ (t.text = "?" → 0 < level) ∧
    ∀ p ∈ BinaryOp.ofToken? t.text, p.1.level < level

theorem Stops.mono {level level' : Nat} (h : Stops level t) (hle : level ≤ level') : Stops level' t := by
  refine ⟨h.toLimits, fun hkind => ?_⟩
  obtain ⟨hpoint, hternary, hop⟩ := h.sign hkind
  exact ⟨hpoint, fun ht => Nat.lt_of_lt_of_le (hternary ht) hle,
    fun p hp => Nat.lt_of_lt_of_le (hop p hp) hle⟩

theorem Linked.append_inv {links links' : List Link} (h : Linked (links ++ links') before after) :
    ∃ between, Linked links before between ∧ Linked links' between after := by
  induction links generalizing before with
  | nil => exact ⟨before, .nil before, h⟩
  | cons l links ih =>
    cases h with
    | cons hsign hoperand hlinks =>
      obtain ⟨between, hfront, hback⟩ := ih hlinks
      exact ⟨between, .cons hsign hoperand hfront, hback⟩

/-- An operator with an `=` behind it is a compound assignment unless that is another operator. -/
theorem ofToken?_compound {op : BinaryOp} (h : ∀ op' ∈ BinaryOp.all, op'.text ≠ op.text ++ "=") :
    BinaryOp.ofToken? (op.text ++ "=") = some (op, true) := by
  revert h
  cases op <;> decide

section Signs

variable {l : Link}

theorem ofToken?_of_signs (h : l.Signs t) : BinaryOp.ofToken? t.text = some (l.op, l.compound) := by
  obtain ⟨-, htext, -, hcompound⟩ := h
  obtain ⟨op, compound, operand⟩ := l
  rw [htext]
  cases compound with
  | false => exact ofToken?_text op
  | true => exact ofToken?_compound fun op' _ => hcompound rfl op'

theorem limits_of_signs (h : l.Signs t) : Limits t := by
  have hop := ofToken?_of_signs h
  constructor
  · by_contra hreads
    have htext : t.text = "(" := by simp_all [Token.reads]
    rw [htext] at hop
    cases hop
  · refine .inr ?_
    by_contra hbump
    unfold Bump.ofText? at hbump
    split at hbump
    · rename_i htext
      rw [htext] at hop
      cases hop
    · rename_i htext
      rw [htext] at hop
      cases hop
    · exact hbump rfl

theorem stops_of_signs (h : l.Signs t) {level : Nat} (hl : l.level < level) : Stops level t := by
  refine ⟨limits_of_signs h, fun _ => ⟨?_, ?_, ?_⟩⟩
  · intro htext
    have hop := ofToken?_of_signs h
    rw [htext] at hop
    cases hop
  · intro htext
    have hop := ofToken?_of_signs h
    rw [htext] at hop
    cases hop
  · intro p hp
    rw [ofToken?_of_signs h] at hp
    cases hp
    exact hl

end Signs

/-- What stands in front of links, or of what ends them, is an operand. -/
theorem Linked.limits {links : List Link} (h : Linked links before (t :: after)) (ht : Limits t) :
    ∃ u us, before = u :: us ∧ Limits u := by
  cases h with
  | nil => exact ⟨t, after, rfl, ht⟩
  | cons hsign _ _ => exact ⟨_, _, rfl, limits_of_signs hsign⟩

/-- Links of which the first is looser, or what ends them, are not read at the level. -/
theorem Linked.stops {links : List Link} {level : Nat} (h : Linked links before (t :: after))
    (hlinks : ∀ l ∈ links.head?, l.level < level) (ht : Stops level t) :
    ∃ u us, before = u :: us ∧ Stops level u := by
  cases h with
  | nil => exact ⟨t, after, rfl, ht⟩
  | cons hsign _ _ => exact ⟨_, _, rfl, stops_of_signs hsign (hlinks _ rfl)⟩

/-! ## Reading a chain -/

theorem finds_primary {e : Expr} (h : Operand e before (t :: after)) (ht : Limits t) :
    Finds primaryWithin e before (t :: after) := by
  refine Finds.succ ?_
  unfold primaryWithin
  cases h with
  | @num u hkind =>
    refine (reads_token _ _).finds.bind ?_
    rw [hkind]
    exact (reads_pure _ _).finds
  | str hkind =>
    refine (reads_token _ _).finds.bind ?_
    rw [hkind]
    exact (reads_pure _ _).finds
  | name hkind =>
    refine (reads_token _ _).finds.bind ?_
    rw [hkind]
    refine (reads_token _ _).finds.bind ?_
    rw [ht.call]
    exact (reads_giveBack t _).finds
  | bracketed hkind htext hc h =>
    refine (reads_token _ _).finds.bind ?_
    rw [hkind, htext]
    exact (finds_expression.mpr h).bind ((reads_expect hc).finds.bind (reads_pure e _).finds)

theorem finds_operand {e : Expr} (h : Operand e before (t :: after)) (ht : Limits t) :
    Finds operandWithin e before (t :: after) := by
  refine Finds.succ ?_
  unfold operandWithin
  refine (finds_primary h ht).bind ((reads_token t after).finds.bind ?_)
  split
  · rename_i b hkind hbump
    rcases ht.bump with hop | hnone
    · exact absurd hkind hop
    · rw [hnone] at hbump
      cases hbump
  · exact (reads_giveBack t e).finds

theorem finds_operators_stop {level : Nat} {left : Expr} (ht : Stops level t) :
    Finds (operatorsWithin · level left) left (t :: after) (t :: after) := by
  have hreads : Reads (do pushBack t; return left) left after (t :: after) := reads_giveBack t left
  have hback := hreads.finds
  refine Finds.succ ?_
  unfold operatorsWithin
  refine (reads_token t after).finds.bind ?_
  by_cases hkind : t.kind ≠ .op ∧ t.kind ≠ .punct
  · simpa only [if_pos hkind] using hback
  obtain ⟨hpoint, hternary, hop⟩ := ht.sign (by tauto)
  simp only [if_neg hkind, if_neg hpoint]
  by_cases htext : t.text = "?"
  · simpa only [if_pos htext, if_pos (hternary htext)] using hback
  simp only [if_neg htext]
  cases hsign : BinaryOp.ofToken? t.text with
  | none => exact hback
  | some p => simpa only [if_pos (hop p hsign)] using hback

/-- The operator of a link that is not looser than the level, and the expression behind it. -/
theorem finds_operators_sign {l : Link} {level : Nat} {left right result : Expr}
    (hsign : l.Signs t) (hlevel : level ≤ l.level)
    (hright : Finds (expressionWithin · l.level) right before between)
    (hrest : Finds (operatorsWithin · level (l.join left right)) result between after) :
    Finds (operatorsWithin · level left) result (t :: before) after := by
  have hop := ofToken?_of_signs hsign
  have hpoint : t.text ≠ "." := fun htext => by
    rw [htext] at hop
    cases hop
  have hternary : t.text ≠ "?" := fun htext => by
    rw [htext] at hop
    cases hop
  refine Finds.succ ?_
  unfold operatorsWithin
  refine (reads_token t before).finds.bind ?_
  have hkind : ¬ (t.kind ≠ .op ∧ t.kind ≠ .punct) := by simp [hsign.kind]
  have hlow : ¬ l.op.level < level := Nat.not_lt.mpr hlevel
  simp only [if_neg hkind, if_neg hpoint, if_neg hternary, hop, if_neg hlow]
  exact hright.bind ((reads_closeSubscript_of_ne hsign.op _).finds.bind hrest)

theorem finds_expression_of {level : Nat} {first e : Expr} (h : Operand first before (t :: between))
    (ht : Limits t) (hops : Finds (operatorsWithin · level first) e (t :: between) after) :
    Finds (expressionWithin · level) e before after := by
  refine Finds.succ ?_
  unfold expressionWithin
  exact (finds_operand h ht).bind hops

/-- The loop over operators reads links that are not looser than its level, and stops at what does
not belong to them. -/
theorem finds_operators {level : Nat} {left : Expr} {links : List Link}
    (hlinks : Linked links before (t :: after)) (hlevel : ∀ l ∈ links, level ≤ l.level)
    (ht : Stops level t) :
    Finds (operatorsWithin · level left) (left.chain links) before (t :: after) := by
  induction hlength : links.length using Nat.strong_induction_on
    generalizing links left level before t after with
  | _ k ih =>
    cases hlinks with
    | nil =>
      rw [Expr.chain_nil]
      exact finds_operators_stop ht
    | @cons l rest u mid mid' _ hsign hoperand hrest =>
      obtain ⟨hl, hlevel⟩ := List.forall_mem_cons.mp hlevel
      have hsplit := Link.tight_append_loose l.level rest
      have hcount := congrArg List.length hsplit
      rw [List.length_append] at hcount
      rw [List.length_cons] at hlength
      -- the right side ends at the first link that is looser than `l`, or where the links end
      obtain ⟨w, ws, rfl, hw⟩ := hrest.limits ht.toLimits
      rw [← hsplit] at hrest
      obtain ⟨between, htight, hloose⟩ := hrest.append_inv
      obtain ⟨v, vs, rfl, hv⟩ :=
        hloose.stops (fun m hm => Link.lt_of_head_loose hm) (ht.mono hl)
      have hright : Finds (expressionWithin · l.level) (l.operand.chain (Link.tight l.level rest))
          mid (v :: vs) :=
        finds_expression_of hoperand hw
          (ih _ (by omega) htight (fun m hm => Link.le_of_mem_tight hm) hv rfl)
      have hloop (left : Expr) : Finds (operatorsWithin · level left)
          (left.chain (Link.loose l.level rest)) (v :: vs) (t :: after) :=
        ih _ (by omega) hloose
          (fun m hm => hlevel m (hsplit ▸ List.mem_append_right _ hm)) ht rfl
      have hchain : left.chain (l :: (Link.tight l.level rest ++ Link.loose l.level rest)) =
          (l.join left (l.operand.chain (Link.tight l.level rest))).chain
            (Link.loose l.level rest) :=
        Expr.chain_group (fun m hm => Link.le_of_mem_tight hm) fun m hm => Link.lt_of_head_loose hm
      rw [← hsplit, hchain]
      exact finds_operators_sign hsign hl hright (hloop _)

end Parser

open Kiln.Parser

/-- Operands with operators between them, read at a level: the longest front part in which every
operator binds at that level or tighter, as the tree that is split at the leftmost of its loosest
operators, and then of the two sides in the same way; the rest is left.  At level 0 nothing is left. -/
theorem Expr.reads_chain {first : Expr} {links : List Link} {before between after : List Token}
    {t : Token} (hfirst : Operand first before between) (hlinks : Linked links between (t :: after))
    (ht : Stops 0 t) : Reads (expression 0) (first.chain links) before (t :: after) ∧
      ∀ level, ∃ rest, Linked (Link.tight level links) between rest ∧
        Linked (Link.loose level links) rest (t :: after) ∧
        Reads (expression level) (first.chain (Link.tight level links)) before rest := by
  have hlevels : ∀ level, ∃ rest, Linked (Link.tight level links) between rest ∧
      Linked (Link.loose level links) rest (t :: after) ∧
      Reads (expression level) (first.chain (Link.tight level links)) before rest := by
    intro level
    obtain ⟨u, us, rfl, hu⟩ := hlinks.limits ht.toLimits
    rw [← Link.tight_append_loose level links] at hlinks
    obtain ⟨rest, htight, hloose⟩ := hlinks.append_inv
    obtain ⟨v, vs, rfl, hv⟩ :=
      hloose.stops (fun m hm => Link.lt_of_head_loose hm) (ht.mono (Nat.zero_le level))
    refine ⟨v :: vs, htight, hloose, finds_expression.mp ?_⟩
    exact finds_expression_of hfirst hu
      (finds_operators htight (fun m hm => Link.le_of_mem_tight hm) hv)
  refine ⟨?_, hlevels⟩
  obtain ⟨rest, -, hloose, hread⟩ := hlevels 0
  rw [Link.tight_zero] at hread
  rw [Link.loose_zero] at hloose
  cases hloose
  exact hread

/-- What ends an expression in a text ends one that is read at any level. -/
theorem Parser.stops_of_ends {t : Token} (ht : t ∈ ends) : Stops 0 t := by
  have hends : ∀ t ∈ ends, t.reads "(" = false ∧ (t.kind = .op ∨ t.kind = .punct →
      t.text ≠ "." ∧ (t.text = "?" → 0 < 0) ∧ ∀ p ∈ BinaryOp.ofToken? t.text, p.1.level < 0) := by
    decide
  obtain ⟨hcall, hsign⟩ := hends t ht
  exact ⟨⟨hcall, stays_of_ends ht⟩, hsign⟩

open Token in
/-- In `x -= a - (b) || c` the operator `||` is the loosest, and of `-=` and `-` the left one is
taken first.  Read at level 3 the text ends before `||`. -/
theorem Expr.reads_chain_compound :
    Reads (expression 0)
        (.binary .or (.binary .assign (.var "x")
          (.binary .subtract (.var "x") (.binary .subtract (.var "a") (.var "b")))) (.var "c"))
        [name "x", op "-=", name "a", op "-", punct "(", name "b", punct ")", op "||", name "c", eof]
        [eof] ∧
      ∃ rest, Linked [⟨.or, false, .var "c"⟩] rest [eof] ∧
        Reads (expression 3)
          (.binary .assign (.var "x")
            (.binary .subtract (.var "x") (.binary .subtract (.var "a") (.var "b"))))
          [name "x", op "-=", name "a", op "-", punct "(", name "b", punct ")", op "||", name "c", eof]
          rest := by
  have hname (text : String) (ts : List Token) : Operand (.var text) (name text :: ts) ts :=
    .name (t := name text) rfl ts
  have hb : Reads (expression 0) (.var "b")
      [name "b", punct ")", op "||", name "c", eof] [punct ")", op "||", name "c", eof] := by
    have hread := (Expr.reads_chain (hname "b" _)
      (.nil [punct ")", op "||", name "c", eof]) (stops_of_ends (by decide))).1
    rwa [Expr.chain_nil] at hread
  have hlinks : Linked [⟨.subtract, true, .var "a"⟩, ⟨.subtract, false, .var "b"⟩,
      ⟨.or, false, .var "c"⟩]
      [op "-=", name "a", op "-", punct "(", name "b", punct ")", op "||", name "c", eof] [eof] := by
    refine .cons ⟨rfl, rfl, by decide, fun _ o => ?_⟩ (hname "a" _) ?_
    · cases o <;> decide
    refine .cons ⟨rfl, rfl, by decide, nofun⟩ (.bracketed rfl rfl rfl hb) ?_
    exact .cons ⟨rfl, rfl, by decide, nofun⟩ (hname "c" _) (.nil _)
  obtain ⟨hread, hlevels⟩ := Expr.reads_chain (hname "x" _) hlinks
    (stops_of_ends (by decide))
  obtain ⟨rest, -, hloose, hfront⟩ := hlevels 3
  refine ⟨?_, rest, ?_, ?_⟩
  · simpa [Expr.chain, Link.cut?, Link.level, Link.join, BinaryOp.join, BinaryOp.level] using hread
  · simpa [Link.loose, Link.level, BinaryOp.level] using hloose
  · simpa [Expr.chain, Link.tight, Link.cut?, Link.level, Link.join, BinaryOp.join,
      BinaryOp.level] using hfront

end Kiln
