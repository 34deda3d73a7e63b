import Kiln.Proofs.Fingerprint.Gather.Expr
import Kiln.Proofs.Fingerprint.Written
import Kiln.Proofs.Parser.Names
import Kiln.Proofs.Text.Numeral
import Kiln.Proofs.Text.Pieces

/-!
# Kiln.Proofs.Fingerprint.Reading.Expr — reading the fingerprint of an expression back

A gathered expression with integer constants is determined by its fingerprint, and so is the place
where it ends, provided that what follows is nothing it would read on into.

* `Legible e r`: the text `r` can follow the expression `e`. * `written_append_inj`: two texts that
start with something legible and are equal start with the same and go on with the same.
-/

namespace Kiln

open Fingerprint Text

namespace Fingerprint

/-! ## Headers and words -/

theorem headed_append (n : NodeKind) (x r : List Char) : headed n x ++ r = headed n (x ++ r) := by
  simp [headed]

/-- The header tells the node. -/
theorem headed_inj {m n : NodeKind} {x y : List Char} (h : headed m x = headed n y) :
    m = n ∧ x = y := by
  obtain ⟨htag, hrest⟩ :=
    header_append_inj (NodeKind.colon_notMem_tag m) (NodeKind.colon_notMem_tag n) h
  exact ⟨NodeKind.tag_injective htag, hrest⟩

theorem headed_eq (n : NodeKind) (x : List Char) :
    headed n x = mark "class:" ++ (n.tag.toList ++ ":args:".toList ++ x) := by
  simp [headed, Digest.header, mark]

/-- Whether the header is one of a statement. -/
def NodeKind.ofStmt : NodeKind → Bool
  | .exprStmt | .block | .branch | .loop | .foreach | .breakStmt | .continueStmt | .returnStmt
  | .depends | .includeStmt | .usingStmt => true
  | _ => false

/-- The word before every item of a list. -/
def itemMark : Expr.Listing → String
  | .elements => ":elem:"
  | .entries => ":key:"
  | .arguments => ":arg:"

/-- Whether no expression reads on into the word: it starts with no digit, and neither it nor the
word before an item starts with the other. -/
def stops (word : String) : Bool :=
  word.toList.head?.any (!·.isDigit) &&
    [Expr.Listing.elements, .entries, .arguments].all fun l =>
      !(itemMark l).toList.isPrefixOf word.toList && !word.toList.isPrefixOf (itemMark l).toList

end Fingerprint

namespace Expr

/-- The constants are integers. -/
def IsInt (v : Literal) : Prop := ∃ n, v = .int n

/-- The expression is gathered, its constants are integers and its names are proper, and neither its
last number nor a list that is open at its end goes on in the text `r`. -/
structure Legible (e : Expr) (r : List Char) : Prop where
  gathered : e.Gathered
  proper : e.Every IsInt Identifier
  number : Numeral.NoDigit r
  closed : ∀ l, e.Takes l → ¬ mark (itemMark l) <+: r

/-- The text that a word starts is no continuation of a list if the word stops expressions. -/
theorem legible_of_stops {e : Expr} {word : String} {r : List Char} (he : e.Gathered)
    (hp : e.Every IsInt Identifier) (hw : stops word = true) : Legible e (mark word ++ r) := by
  simp only [stops, Bool.and_eq_true, List.all_cons, List.all_nil, Bool.not_eq_true', mark] at hw ⊢
  obtain ⟨hhead, helems, hentries, hargs, -⟩ := hw
  refine ⟨he, hp, ?_, fun l _ hpre => ?_⟩
  · intro c hc
    cases hword : word.toList with
    | nil => simp [hword] at hhead
    | cons d ds =>
      simp only [hword, List.cons_append, List.head?_cons, Option.mem_def, Option.some.injEq] at hc
      subst hc
      simpa [hword] using hhead
  · rw [mark] at hpre
    have hcmp := List.prefix_or_prefix_of_prefix hpre (List.prefix_append word.toList r)
    simp only [← List.isPrefixOf_iff_prefix] at hcmp
    cases l <;> simp_all

/-- The text that starts with another item is no continuation of a list that takes no such item. -/
theorem legible_of_item {e : Expr} {l : Listing} {r : List Char} (he : e.Gathered)
    (hp : e.Every IsInt Identifier) (hl : ¬ e.Takes l) : Legible e (mark (itemMark l) ++ r) := by
  refine ⟨he, hp, ?_, fun k hk hpre => ?_⟩
  · cases l <;> simp [Numeral.NoDigit, mark, itemMark]
  · have hne : k ≠ l := fun h => hl (h ▸ hk)
    have hcmp := List.prefix_or_prefix_of_prefix hpre (List.prefix_append _ r)
    simp only [mark, ← List.isPrefixOf_iff_prefix] at hcmp
    revert hcmp hne
    cases k <;> cases l <;> decide

/-- What the header of an expression tells of it. -/
def nodeKind : Expr → NodeKind
  | .const _ => .const
  | .var _ => .var
  | .array _ => .array
  | .dict _ => .dict
  | .unary .. => .unary
  | .bump .. => .unary
  | .binary .. => .binary
  | .ternary .. => .ternary
  | .builtin fn _ => .builtin fn
  | .call .. => .call

theorem ofStmt_nodeKind (e : Expr) : e.nodeKind.ofStmt = false := by
  cases e <;> rfl

theorem written_eq_headed (g : Glossary) (e : Expr) : ∃ x, e.written g = headed e.nodeKind x := by
  cases e <;> exact ⟨_, by rw [written]; rfl⟩

theorem nodeKind_eq {g : Glossary} {e₁ e₂ : Expr} {r₁ r₂ : List Char}
    (h : e₁.written g ++ r₁ = e₂.written g ++ r₂) : e₁.nodeKind = e₂.nodeKind := by
  obtain ⟨x, hx⟩ := written_eq_headed g e₁
  obtain ⟨y, hy⟩ := written_eq_headed g e₂
  rw [hx, hy, headed_append, headed_append] at h
  exact (headed_inj h).1

/-- Another expression can follow. -/
theorem legible_of_written {e e' : Expr} {g : Glossary} {r : List Char} (he : e.Gathered)
    (hp : e.Every IsInt Identifier) : Legible e (e'.written g ++ r) := by
  obtain ⟨x, hx⟩ := written_eq_headed g e'
  rw [hx, headed_append, headed_eq]
  exact legible_of_stops he hp (by decide)

/-- The expressions of a list of the kind `l` are legible in front of each other and of `r`. -/
structure LegibleList (l : Listing) (es : List Expr) (r : List Char) : Prop where
  gathered : GatheredList l es
  proper : EveryIn IsInt Identifier es
  number : Numeral.NoDigit r
  closed : ∀ k, LastTakes k es → ¬ mark (itemMark k) <+: r
  ended : ¬ mark (itemMark l) <+: r

theorem LegibleList.head {l : Listing} {e : Expr} {rest : List Expr} {r : List Char} {g : Glossary}
    (h : LegibleList l (e :: rest) r) :
    Legible e (writtenList g (itemMark l) rest ++ r) := by
  obtain ⟨he, hopen, -⟩ := h.gathered
  cases rest with
  | nil => exact ⟨he, h.proper.1, h.number, h.closed⟩
  | cons e' rest =>
    simp only [writtenList, List.append_assoc]
    exact legible_of_item he h.proper.1 (hopen (by simp))

theorem LegibleList.tail {l : Listing} {e : Expr} {rest : List Expr} {r : List Char}
    (h : LegibleList l (e :: rest) r) : LegibleList l rest r where
  gathered := h.gathered.2.2
  proper := h.proper.2
  number := h.number
  closed k hk := by
    refine h.closed k ?_
    cases rest with
    | nil => exact hk.elim
    | cons e' rest => exact hk
  ended := h.ended

/-- The entries of a dictionary are legible in front of each other and of `r`. -/
structure LegibleEntries (ps : List (Expr × Expr)) (r : List Char) : Prop where
  gathered : GatheredEntries ps
  proper : EveryInEntries IsInt Identifier ps
  number : Numeral.NoDigit r
  closed : ∀ k, LastEntryTakes k ps → ¬ mark (itemMark k) <+: r
  ended : ¬ mark (itemMark .entries) <+: r

theorem LegibleEntries.head {k v : Expr} {rest : List (Expr × Expr)} {r : List Char} {g : Glossary}
    (h : LegibleEntries ((k, v) :: rest) r) : Legible v (writtenEntries g rest ++ r) := by
  obtain ⟨-, hv, hopen, -⟩ := h.gathered
  cases rest with
  | nil => exact ⟨hv, h.proper.2.1, h.number, h.closed⟩
  | cons p rest =>
    obtain ⟨k', v'⟩ := p
    simp only [writtenEntries, List.append_assoc]
    exact legible_of_item (l := .entries) hv h.proper.2.1 (hopen (by simp))

theorem LegibleEntries.tail {p : Expr × Expr} {rest : List (Expr × Expr)} {r : List Char}
    (h : LegibleEntries (p :: rest) r) : LegibleEntries rest r where
  gathered := h.gathered.2.2.2
  proper := h.proper.2.2
  number := h.number
  closed k hk := by
    refine h.closed k ?_
    cases rest with
    | nil => exact hk.elim
    | cons p' rest => exact hk
  ended := h.ended

theorem Legible.array {es : List Expr} {r : List Char} (h : Legible (.array es) r) :
    LegibleList .elements es r :=
  ⟨h.gathered, h.proper, h.number, fun k hk => h.closed k (.inr hk), h.closed _ (.inl rfl)⟩

theorem Legible.dict {ps : List (Expr × Expr)} {r : List Char} (h : Legible (.dict ps) r) :
    LegibleEntries ps r :=
  ⟨h.gathered, h.proper, h.number, fun k hk => h.closed k (.inr hk), h.closed _ (.inl rfl)⟩

theorem Legible.builtin {fn : Builtin} {args : List Expr} {r : List Char}
    (h : Legible (.builtin fn args) r) : LegibleList .arguments args r :=
  ⟨h.gathered, h.proper, h.number, fun k hk => h.closed k (.inr hk), h.closed _ (.inl rfl)⟩

theorem Legible.call {name : String} {args : List Expr} {r : List Char}
    (h : Legible (.call name args) r) : LegibleList .arguments args r :=
  ⟨h.gathered, h.proper.2, h.number, fun k hk => h.closed k (.inr hk), h.closed _ (.inl rfl)⟩

theorem Legible.unary {op : UnaryOp} {arg : Expr} {r : List Char}
    (h : Legible (.unary op arg) r) : Legible arg r :=
  ⟨h.gathered, h.proper, h.number, h.closed⟩

theorem Legible.bump {op : Bump} {side : Side} {arg : Expr} {r : List Char}
    (h : Legible (.bump op side arg) r) : Legible arg r :=
  ⟨h.gathered, h.proper, h.number, h.closed⟩

theorem Legible.right {op : BinaryOp} {left right : Expr} {r : List Char}
    (h : Legible (.binary op left right) r) : Legible right r :=
  ⟨h.gathered.2, h.proper.2, h.number, h.closed⟩

theorem Legible.no {cond yes no : Expr} {r : List Char}
    (h : Legible (.ternary cond yes no) r) : Legible no r :=
  ⟨h.gathered.2.2, h.proper.2.2, h.number, h.closed⟩

/-! ## Marks of operators -/

theorem colon_notMem_unaryMark (op : UnaryOp) : ':' ∉ unaryMark op := by
  cases op <;> decide

theorem colon_notMem_bumpMark (op : Bump) (side : Side) : ':' ∉ bumpMark op side := by
  cases op <;> cases side <;> decide

theorem unaryMark_inj {a b : UnaryOp} (h : unaryMark a = unaryMark b) : a = b := by
  revert h
  cases a <;> cases b <;> decide

theorem bumpMark_inj {a b : Bump} {s t : Side} (h : bumpMark a s = bumpMark b t) :
    a = b ∧ s = t := by
  revert h
  cases a <;> cases b <;> cases s <;> cases t <;> decide

theorem unaryMark_ne_bumpMark (a : UnaryOp) (b : Bump) (s : Side) :
    unaryMark a ≠ bumpMark b s := by
  cases a <;> cases b <;> cases s <;> decide

theorem colon_notMem_level (op : BinaryOp) : ':' ∉ (toString op.level).toList := by
  cases op <;> decide

theorem toString_level_inj {a b : BinaryOp}
    (h : (toString a.level).toList = (toString b.level).toList) : a = b := by
  have hdigits : Nat.toDigits 10 a.level = Nat.toDigits 10 b.level := by simpa using h
  have hlevel : a.level = b.level := by
    rw [← Nat.ofDigitChars_ten_toDigits (n := a.level), hdigits, Nat.ofDigitChars_ten_toDigits]
  revert hlevel
  cases a <;> cases b <;> decide

theorem colon_notMem_of_identifier {name : String} (h : Identifier name) : ':' ∉ name.toList := by
  intro hc
  have := h ':' hc
  revert this
  decide

/-! ## Reading an expression -/

variable {g : Glossary}

/-- An integer constant ends where its digits end. -/
theorem literal_append_inj {v w : Literal} {r₁ r₂ : List Char} (hv : IsInt v) (hw : IsInt w)
    (h₁ : Numeral.NoDigit r₁) (h₂ : Numeral.NoDigit r₂)
    (h : (literal v).toList ++ r₁ = (literal w).toList ++ r₂) : v = w ∧ r₁ = r₂ := by
  obtain ⟨m, rfl⟩ := hv
  obtain ⟨n, rfl⟩ := hw
  simp only [literal, Tree.encode, String.toList_append, List.append_assoc] at h
  obtain ⟨rfl, hr⟩ := Numeral.decimal_append_inj h₁ h₂ (List.append_cancel_left h)
  exact ⟨rfl, hr⟩

mutual

/-- An expression is determined by a text that starts with its fingerprint, and so is what follows.
-/
theorem written_append_inj : ∀ {e₁ e₂ : Expr} {r₁ r₂ : List Char}, Legible e₁ r₁ → Legible e₂ r₂ →
    e₁.written g ++ r₁ = e₂.written g ++ r₂ → e₁ = e₂ ∧ r₁ = r₂
  | .const v, e₂, r₁, r₂, h₁, h₂, h => by
    cases e₂ with
    | const w =>
      simp only [written, headed_append] at h
      obtain ⟨rfl, hr⟩ :=
        literal_append_inj h₁.proper h₂.proper h₁.number h₂.number (headed_inj h).2
      exact ⟨rfl, hr⟩
    | _ => cases nodeKind_eq h
  | .var a, e₂, r₁, r₂, h₁, h₂, h => by
    cases e₂ with
    | var b =>
      simp only [written, headed_append, List.append_assoc] at h
      have h' := List.append_cancel_left (headed_inj h).2
      have hval : ":value:".toList = ':' :: "value:".toList := rfl
      simp only [mark, hval, List.cons_append] at h'
      obtain ⟨hab, hr⟩ := Pieces.append_sep_inj (colon_notMem_of_identifier h₁.proper)
        (colon_notMem_of_identifier h₂.proper) h'
      obtain rfl := String.toList_injective hab
      exact ⟨rfl, List.append_cancel_left (List.append_cancel_left hr)⟩
    | _ => cases nodeKind_eq h
  | .array es, e₂, r₁, r₂, h₁, h₂, h => by
    cases e₂ with
    | array fs =>
      simp only [written, headed_append] at h
      obtain ⟨rfl, hr⟩ := writtenList_append_inj h₁.array h₂.array (headed_inj h).2
      exact ⟨rfl, hr⟩
    | _ => cases nodeKind_eq h
  | .dict ps, e₂, r₁, r₂, h₁, h₂, h => by
    cases e₂ with
    | dict qs =>
      simp only [written, headed_append] at h
      obtain ⟨rfl, hr⟩ := writtenEntries_append_inj h₁.dict h₂.dict (headed_inj h).2
      exact ⟨rfl, hr⟩
    | _ => cases nodeKind_eq h
  | .unary op arg, e₂, r₁, r₂, h₁, h₂, h => by
    cases e₂ with
    | unary op' arg' =>
      simp only [written, headed_append, List.append_assoc, List.cons_append] at h
      obtain ⟨hop, h'⟩ := Pieces.append_sep_inj (colon_notMem_unaryMark op)
        (colon_notMem_unaryMark op') (headed_inj h).2
      obtain ⟨rfl, hr⟩ := written_append_inj h₁.unary h₂.unary h'
      exact ⟨by rw [unaryMark_inj hop], hr⟩
    | bump op' side' arg' =>
      simp only [written, headed_append, List.append_assoc, List.cons_append] at h
      exact absurd (Pieces.append_sep_inj (colon_notMem_unaryMark op)
        (colon_notMem_bumpMark op' side') (headed_inj h).2).1 (unaryMark_ne_bumpMark _ _ _)
    | _ => cases nodeKind_eq h
  | .bump op side arg, e₂, r₁, r₂, h₁, h₂, h => by
    cases e₂ with
    | unary op' arg' =>
      simp only [written, headed_append, List.append_assoc, List.cons_append] at h
      exact absurd (Pieces.append_sep_inj (colon_notMem_bumpMark op side)
        (colon_notMem_unaryMark op') (headed_inj h).2).1 (unaryMark_ne_bumpMark _ _ _).symm
    | bump op' side' arg' =>
      simp only [written, headed_append, List.append_assoc, List.cons_append] at h
      obtain ⟨hop, h'⟩ := Pieces.append_sep_inj (colon_notMem_bumpMark op side)
        (colon_notMem_bumpMark op' side') (headed_inj h).2
      obtain ⟨rfl, rfl⟩ := bumpMark_inj hop
      obtain ⟨rfl, hr⟩ := written_append_inj h₁.bump h₂.bump h'
      exact ⟨rfl, hr⟩
    | _ => cases nodeKind_eq h
  | .binary op left right, e₂, r₁, r₂, h₁, h₂, h => by
    cases e₂ with
    | binary op' left' right' =>
      simp only [written, headed_append, List.append_assoc, List.cons_append] at h
      obtain ⟨hop, h'⟩ := Pieces.append_sep_inj (colon_notMem_level op)
        (colon_notMem_level op') (headed_inj h).2
      obtain rfl := toString_level_inj hop
      obtain ⟨rfl, h''⟩ := written_append_inj
        (legible_of_stops h₁.gathered.1 h₁.proper.1 (by decide))
        (legible_of_stops h₂.gathered.1 h₂.proper.1 (by decide)) (List.append_cancel_left h')
      obtain ⟨rfl, hr⟩ := written_append_inj h₁.right h₂.right (List.append_cancel_left h'')
      exact ⟨rfl, hr⟩
    | _ => cases nodeKind_eq h
  | .ternary cond yes no, e₂, r₁, r₂, h₁, h₂, h => by
    cases e₂ with
    | ternary cond' yes' no' =>
      simp only [written, headed_append, List.append_assoc] at h
      obtain ⟨rfl, h'⟩ := written_append_inj
        (legible_of_written h₁.gathered.1 h₁.proper.1)
        (legible_of_written h₂.gathered.1 h₂.proper.1) (headed_inj h).2
      obtain ⟨rfl, h''⟩ := written_append_inj
        (legible_of_written h₁.gathered.2.1 h₁.proper.2.1)
        (legible_of_written h₂.gathered.2.1 h₂.proper.2.1) h'
      obtain ⟨rfl, hr⟩ := written_append_inj h₁.no h₂.no h''
      exact ⟨rfl, hr⟩
    | _ => cases nodeKind_eq h
  | .builtin fn args, e₂, r₁, r₂, h₁, h₂, h => by
    cases e₂ with
    | builtin fn' args' =>
      simp only [written, headed_append] at h
      obtain ⟨hfn, h'⟩ := headed_inj h
      injection hfn with hfn
      obtain ⟨rfl, hr⟩ := writtenList_append_inj h₁.builtin h₂.builtin h'
      exact ⟨by rw [hfn], hr⟩
    | _ => cases nodeKind_eq h
  | .call a args, e₂, r₁, r₂, h₁, h₂, h => by
    cases e₂ with
    | call b args' =>
      simp only [written, headed_append, List.append_assoc] at h
      have h' := List.append_cancel_left (headed_inj h).2
      have hfunc : ":func:".toList = ':' :: "func:".toList := rfl
      simp only [mark, hfunc, List.cons_append] at h'
      obtain ⟨hab, h''⟩ := Pieces.append_sep_inj (colon_notMem_of_identifier h₁.proper.1)
        (colon_notMem_of_identifier h₂.proper.1) h'
      -- the same name stands for the same function, whatever its text is
      obtain rfl := String.toList_injective hab
      obtain ⟨rfl, hr⟩ := writtenList_append_inj h₁.call h₂.call
        (List.append_cancel_left (List.append_cancel_left h''))
      exact ⟨rfl, hr⟩
    | _ => cases nodeKind_eq h

theorem writtenList_append_inj {l : Listing} : ∀ {es fs : List Expr} {r₁ r₂ : List Char},
    LegibleList l es r₁ → LegibleList l fs r₂ →
      writtenList g (itemMark l) es ++ r₁ = writtenList g (itemMark l) fs ++ r₂ → es = fs ∧ r₁ = r₂
  | [], [], _, _, _, _, h => ⟨rfl, by simpa [writtenList] using h⟩
  | [], f :: fs, r₁, r₂, h₁, _, h => by
    simp only [writtenList, List.nil_append, List.append_assoc] at h
    exact absurd ⟨_, h.symm⟩ h₁.ended
  | e :: es, [], r₁, r₂, _, h₂, h => by
    simp only [writtenList, List.nil_append, List.append_assoc] at h
    exact absurd ⟨_, h⟩ h₂.ended
  | e :: es, f :: fs, r₁, r₂, h₁, h₂, h => by
    simp only [writtenList, List.append_assoc] at h
    obtain ⟨rfl, h'⟩ := written_append_inj h₁.head h₂.head (List.append_cancel_left h)
    obtain ⟨rfl, hr⟩ := writtenList_append_inj h₁.tail h₂.tail h'
    exact ⟨rfl, hr⟩

theorem writtenEntries_append_inj : ∀ {ps qs : List (Expr × Expr)} {r₁ r₂ : List Char},
    LegibleEntries ps r₁ → LegibleEntries qs r₂ →
      writtenEntries g ps ++ r₁ = writtenEntries g qs ++ r₂ → ps = qs ∧ r₁ = r₂
  | [], [], _, _, _, _, h => ⟨rfl, by simpa [writtenEntries] using h⟩
  | [], (k, v) :: qs, r₁, r₂, h₁, _, h => by
    simp only [writtenEntries, List.nil_append, List.append_assoc] at h
    exact absurd ⟨_, h.symm⟩ h₁.ended
  | (k, v) :: ps, [], r₁, r₂, _, h₂, h => by
    simp only [writtenEntries, List.nil_append, List.append_assoc] at h
    exact absurd ⟨_, h⟩ h₂.ended
  | (k, v) :: ps, (k', v') :: qs, r₁, r₂, h₁, h₂, h => by
    simp only [writtenEntries, List.append_assoc] at h
    obtain ⟨rfl, h'⟩ := written_append_inj
      (legible_of_stops h₁.gathered.1 h₁.proper.1 (by decide))
      (legible_of_stops h₂.gathered.1 h₂.proper.1 (by decide)) (List.append_cancel_left h)
    obtain ⟨rfl, h''⟩ := written_append_inj h₁.head h₂.head (List.append_cancel_left h')
    obtain ⟨rfl, hr⟩ := writtenEntries_append_inj h₁.tail h₂.tail h''
    exact ⟨rfl, hr⟩

end

/-- An expression is determined if a word that stops expressions stands behind it. -/
theorem written_mark_inj {e₁ e₂ : Expr} {word : String} {x₁ x₂ : List Char}
    (g₁ : e₁.Gathered) (g₂ : e₂.Gathered)
    (p₁ : e₁.Every IsInt Identifier) (p₂ : e₂.Every IsInt Identifier) (hword : stops word = true)
    (h : e₁.written g ++ (mark word ++ x₁) = e₂.written g ++ (mark word ++ x₂)) :
    e₁ = e₂ ∧ x₁ = x₂ := by
  obtain ⟨he, hx⟩ :=
    written_append_inj (legible_of_stops g₁ p₁ hword) (legible_of_stops g₂ p₂ hword) h
  exact ⟨he, List.append_cancel_left hx⟩

end Expr

end Kiln
