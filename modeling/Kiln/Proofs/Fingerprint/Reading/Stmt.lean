import Kiln.Proofs.Fingerprint.Gather.Stmt
import Kiln.Proofs.Fingerprint.Reading.Expr

/-!
# Kiln.Proofs.Fingerprint.Reading.Stmt — reading the fingerprint of a statement back

A gathered statement with integer constants is determined by its fingerprint up to locations, and so
is the place where it ends, provided that what `Follows` is nothing it would read on into.
-/

namespace Kiln

open Fingerprint Text

/-! ## What follows a statement -/

namespace Stmt

/-- What can stand behind a statement: nothing, another statement, the second branch of an `if`, or
the name at the end of a loop over items. -/
inductive Follows : List Char → Prop where
  | nothing : Follows []
  | statement (n : NodeKind) (x : List Char) : n.ofStmt = true → Follows (headed n x)
  | branch (x : List Char) : Follows (mark "else:" ++ x)
  | name (x : List Char) : Follows (mark "foreach:" ++ x)

/-- The words that start what stands behind a statement. -/
def followers : List (List Char) := ["class".toList, "else".toList, "foreach".toList]

theorem Follows.eq {r : List Char} (h : Follows r) :
    r = [] ∨ ∃ w ∈ followers, ∃ x, r = w ++ ':' :: x := by
  cases h with
  | nothing => exact .inl rfl
  | statement n x =>
    refine .inr ⟨"class".toList, by decide, n.tag.toList ++ ":args:".toList ++ x, ?_⟩
    simp [headed, Digest.header]
  | branch x => exact .inr ⟨"else".toList, by decide, x, by simp [mark]⟩
  | name x => exact .inr ⟨"foreach".toList, by decide, x, by simp [mark]⟩

/-- An expression ends where its statement ends. -/
theorem Follows.legible {r : List Char} (h : Follows r) {e : Expr} (he : e.Gathered)
    (hp : e.Every Expr.IsInt Identifier) : e.Legible r := by
  cases h with
  | nothing =>
    refine ⟨he, hp, fun c hc => by simp at hc, fun l _ hpre => ?_⟩
    have hnil := List.prefix_nil.1 hpre
    revert hnil
    cases l <;> simp [mark, itemMark]
  | statement n x =>
    rw [headed_eq]
    exact Expr.legible_of_stops he hp (by decide)
  | branch x => exact Expr.legible_of_stops he hp (by decide)
  | name x => exact Expr.legible_of_stops he hp (by decide)

/-- What stands behind a statement is no expression. -/
theorem Follows.ne_written {r : List Char} (h : Follows r) {g : Glossary} (e : Expr)
    (r' : List Char) : r ≠ e.written g ++ r' := by
  obtain ⟨x, hx⟩ := Expr.written_eq_headed g e
  have hn := Expr.ofStmt_nodeKind e
  rw [hx, headed_append]
  intro heq
  cases h with
  | nothing => simp [headed, Digest.header] at heq
  | statement m y hm =>
    rw [(headed_inj heq).1, hn] at hm
    cases hm
  | branch y => simp [headed, Digest.header, mark] at heq
  | name y => simp [headed, Digest.header, mark] at heq

/-- A name is not the start of a longer one with the rest in what follows. -/
theorem eq_nil_of_follows {u r₁ r₂ : List Char} (hu : ':' ∉ u) (h₁ : Follows r₁) (h₂ : Follows r₂)
    (h : r₁ = u ++ r₂) : u = [] := by
  obtain hr₁ | ⟨w, hw, x, hr₁⟩ := h₁.eq
  · exact (List.append_eq_nil_iff.1 (h.symm.trans hr₁)).1
  · obtain hr₂ | ⟨v, hv, y, hr₂⟩ := h₂.eq
    · rw [hr₁, hr₂, List.append_nil] at h
      exact absurd (h ▸ by simp) hu
    · have hcolon : ∀ w ∈ followers, ':' ∉ w := by decide
      rw [hr₁, hr₂, ← List.append_assoc] at h
      have huv : ':' ∉ u ++ v := by simp [hu, hcolon v hv]
      have hwuv : w = u ++ v := (Pieces.append_sep_inj (hcolon w hw) huv h).1
      -- none of the words ends in another one
      have hsuffix : ∀ w ∈ followers, ∀ v ∈ followers, v <:+ w → v.length = w.length := by decide
      have hlen := hsuffix w hw v hv ⟨u, hwuv.symm⟩
      rw [hwuv, List.length_append] at hlen
      exact List.length_eq_zero_iff.1 (by omega)

/-- The name of a loop variable ends where its statement ends. -/
theorem name_append_inj {a b : String} {r₁ r₂ : List Char} (ha : Identifier a) (hb : Identifier b)
    (h₁ : Follows r₁) (h₂ : Follows r₂) (h : a.toList ++ r₁ = b.toList ++ r₂) :
    a = b ∧ r₁ = r₂ := by
  have ha' := Expr.colon_notMem_of_identifier ha
  have hb' := Expr.colon_notMem_of_identifier hb
  obtain ⟨u, hab, hr⟩ | ⟨u, hab, hr⟩ := List.append_eq_append_iff.1 h
  · have hu : u = [] := eq_nil_of_follows (fun hc => hb' (by simp [hab, hc])) h₁ h₂ hr
    subst hu
    exact ⟨String.toList_injective (by simpa using hab.symm), by simpa using hr⟩
  · have hu : u = [] := eq_nil_of_follows (fun hc => ha' (by simp [hab, hc])) h₂ h₁ hr
    subst hu
    exact ⟨String.toList_injective (by simpa using hab), by simpa using hr.symm⟩

/-! ## Optional expressions -/

variable {g : Glossary}

/-- The text starts with one of the words. -/
def StartsWith (words : List String) (r : List Char) : Prop := ∃ w ∈ words, ∃ x, r = mark w ++ x

theorem startsWith_clause {word : String} {words : List String} {clause : Option Expr}
    {r : List Char} (h : StartsWith words r) :
    StartsWith (word :: words) (Expr.writtenClause g word clause ++ r) := by
  cases clause with
  | none =>
    obtain ⟨w, hw, x, hx⟩ := h
    exact ⟨w, List.mem_cons_of_mem _ hw, x, by rw [Expr.writtenClause, List.nil_append, hx]⟩
  | some e =>
    exact ⟨word, by simp, e.written g ++ r, by rw [Expr.writtenClause, List.append_assoc]⟩

/-- Whether the word is none of the words, nor the start of one, nor the other way round. -/
def apart (word : String) (words : List String) : Bool :=
  words.all fun w => !word.toList.isPrefixOf w.toList && !w.toList.isPrefixOf word.toList

theorem StartsWith.not_prefix {word : String} {words : List String} {r : List Char}
    (h : StartsWith words r) (hapart : apart word words = true) : ¬ mark word <+: r := by
  obtain ⟨w, hw, x, rfl⟩ := h
  intro hpre
  have hcmp := List.prefix_or_prefix_of_prefix hpre (List.prefix_append _ x)
  have hw' := List.all_eq_true.1 hapart w hw
  simp only [mark, ← List.isPrefixOf_iff_prefix] at hcmp
  rcases hcmp with hcmp | hcmp <;> simp [hcmp] at hw'

theorem StartsWith.legible {words : List String} {r : List Char} (h : StartsWith words r)
    (hstops : words.all stops = true) {e : Expr} (he : e.Gathered)
    (hp : e.Every Expr.IsInt Identifier) : e.Legible r := by
  obtain ⟨w, hw, x, rfl⟩ := h
  exact Expr.legible_of_stops he hp (List.all_eq_true.1 hstops w hw)

/-- An optional expression is determined if its word starts nothing that can stand behind it. -/
theorem writtenClause_append_inj (word : String) (words : List String) {c₁ c₂ : Option Expr}
    {r₁ r₂ : List Char} (hapart : apart word words = true) (hstops : words.all stops = true)
    (g₁ : ∀ e ∈ c₁, e.Gathered) (g₂ : ∀ e ∈ c₂, e.Gathered)
    (p₁ : ∀ e ∈ c₁, e.Every Expr.IsInt Identifier) (p₂ : ∀ e ∈ c₂, e.Every Expr.IsInt Identifier)
    (h₁ : StartsWith words r₁) (h₂ : StartsWith words r₂)
    (h : Expr.writtenClause g word c₁ ++ r₁ = Expr.writtenClause g word c₂ ++ r₂) :
    c₁ = c₂ ∧ r₁ = r₂ := by
  cases c₁ with
  | none =>
    cases c₂ with
    | none => exact ⟨rfl, by simpa [Expr.writtenClause] using h⟩
    | some e₂ =>
      simp only [Expr.writtenClause, List.nil_append, List.append_assoc] at h
      exact absurd ⟨_, h.symm⟩ (h₁.not_prefix hapart)
  | some e₁ =>
    cases c₂ with
    | none =>
      simp only [Expr.writtenClause, List.nil_append, List.append_assoc] at h
      exact absurd ⟨_, h⟩ (h₂.not_prefix hapart)
    | some e₂ =>
      simp only [Expr.writtenClause, List.append_assoc] at h
      obtain ⟨rfl, hr⟩ := Expr.written_append_inj (h₁.legible hstops (g₁ _ rfl) (p₁ _ rfl))
        (h₂.legible hstops (g₂ _ rfl) (p₂ _ rfl)) (List.append_cancel_left h)
      exact ⟨rfl, hr⟩

/-- What is returned is told from the next statement by its header. -/
theorem writtenReturn_append_inj {c₁ c₂ : Option Expr} {r₁ r₂ : List Char}
    (g₁ : ∀ e ∈ c₁, e.Gathered) (g₂ : ∀ e ∈ c₂, e.Gathered)
    (p₁ : ∀ e ∈ c₁, e.Every Expr.IsInt Identifier) (p₂ : ∀ e ∈ c₂, e.Every Expr.IsInt Identifier)
    (h₁ : Follows r₁) (h₂ : Follows r₂)
    (h : Expr.writtenClause g "" c₁ ++ r₁ = Expr.writtenClause g "" c₂ ++ r₂) :
    c₁ = c₂ ∧ r₁ = r₂ := by
  have hempty : mark "" = [] := by simp [mark]
  cases c₁ with
  | none =>
    cases c₂ with
    | none => exact ⟨rfl, by simpa [Expr.writtenClause] using h⟩
    | some e₂ =>
      simp only [Expr.writtenClause, hempty, List.nil_append] at h
      exact absurd h (h₁.ne_written e₂ r₂)
  | some e₁ =>
    cases c₂ with
    | none =>
      simp only [Expr.writtenClause, hempty, List.nil_append] at h
      exact absurd h.symm (h₂.ne_written e₁ r₁)
    | some e₂ =>
      simp only [Expr.writtenClause, hempty, List.nil_append] at h
      obtain ⟨rfl, hr⟩ := Expr.written_append_inj (h₁.legible (g₁ _ rfl) (p₁ _ rfl))
        (h₂.legible (g₂ _ rfl) (p₂ _ rfl)) h
      exact ⟨rfl, hr⟩

/-! ## Legible statements -/

/-- The word that starts an item of a statement. -/
def itemMark : Listing → String
  | .statements => "class:"
  | .branches => "else:"

/-- The statement is gathered, its constants are integers and its names are proper, and no place
that is open at its end goes on in the text `r`. -/
structure Legible (s : Stmt) (r : List Char) : Prop where
  gathered : s.Gathered
  proper : s.Every Expr.IsInt Identifier
  follows : Follows r
  closed : ∀ l, s.Takes l → ¬ mark (itemMark l) <+: r

/-- The statements of a block are legible in front of each other and of `r`. -/
structure LegibleList (ss : List Stmt) (r : List Char) : Prop where
  gathered : GatheredList ss
  proper : EveryIn Expr.IsInt Identifier ss
  follows : Follows r
  closed : ∀ l, LastTakes l ss → ¬ mark (itemMark l) <+: r
  ended : ¬ mark (itemMark .statements) <+: r

/-- What the header of a statement tells of it. -/
def nodeKind : Stmt → NodeKind
  | .expr .. => .exprStmt
  | .block .. => .block
  | .branch .. => .branch
  | .loop .. => .loop
  | .foreach .. => .foreach
  | .breakStmt _ => .breakStmt
  | .continueStmt _ => .continueStmt
  | .returnStmt .. => .returnStmt
  | .depends .. => .depends
  | .includeStmt .. => .includeStmt
  | .usingStmt .. => .usingStmt

theorem ofStmt_nodeKind (s : Stmt) : s.nodeKind.ofStmt = true := by
  cases s <;> rfl

theorem written_eq_headed (g : Glossary) (s : Stmt) : ∃ x, s.written g = headed s.nodeKind x := by
  cases s with
  | branch loc cond yes no => cases no <;> exact ⟨_, by rw [written]; rfl⟩
  | _ => exact ⟨_, by rw [written]; rfl⟩

theorem nodeKind_eq {s₁ s₂ : Stmt} {r₁ r₂ : List Char}
    (h : s₁.written g ++ r₁ = s₂.written g ++ r₂) : s₁.nodeKind = s₂.nodeKind := by
  obtain ⟨x, hx⟩ := written_eq_headed g s₁
  obtain ⟨y, hy⟩ := written_eq_headed g s₂
  rw [hx, hy, headed_append, headed_append] at h
  exact (headed_inj h).1

theorem follows_written (g : Glossary) (s : Stmt) (r : List Char) : Follows (s.written g ++ r) := by
  obtain ⟨x, hx⟩ := written_eq_headed g s
  rw [hx, headed_append]
  exact .statement _ _ (ofStmt_nodeKind s)

theorem mark_prefix_written (g : Glossary) (s : Stmt) (r : List Char) :
    mark (itemMark .statements) <+: s.written g ++ r := by
  obtain ⟨x, hx⟩ := written_eq_headed g s
  rw [hx, headed_append, headed_eq]
  exact List.prefix_append _ _

/-- Another statement can follow one that takes none. -/
theorem legible_of_written {s s' : Stmt} {r : List Char} (hs : s.Gathered)
    (hp : s.Every Expr.IsInt Identifier) (hopen : ¬ s.Takes .statements) :
    Legible s (s'.written g ++ r) := by
  refine ⟨hs, hp, follows_written g s' r, fun l hl => ?_⟩
  cases l with
  | statements => exact absurd hl hopen
  | branches =>
    obtain ⟨x, hx⟩ := written_eq_headed g s'
    rw [hx, headed_append, headed_eq]
    simp [mark, itemMark]

theorem LegibleList.head {s : Stmt} {rest : List Stmt} {r : List Char}
    (h : LegibleList (s :: rest) r) : Legible s (writtenList g rest ++ r) := by
  obtain ⟨hs, hopen, -⟩ := h.gathered
  cases rest with
  | nil => exact ⟨hs, h.proper.1, h.follows, h.closed⟩
  | cons s' rest =>
    simp only [writtenList, List.append_assoc]
    exact legible_of_written hs h.proper.1 (hopen (by simp))

theorem LegibleList.tail {s : Stmt} {rest : List Stmt} {r : List Char}
    (h : LegibleList (s :: rest) r) : LegibleList rest r where
  gathered := h.gathered.2.2
  proper := h.proper.2
  follows := h.follows
  closed l hl := by
    refine h.closed l ?_
    cases rest with
    | nil => exact hl.elim
    | cons s' rest => exact hl
  ended := h.ended

variable {loc : Location} {r : List Char}

theorem Legible.block {ss : List Stmt} (h : Legible (.block loc ss) r) : LegibleList ss r :=
  ⟨h.gathered, h.proper, h.follows, fun l hl => h.closed l (.inr hl), h.closed _ (.inl rfl)⟩

theorem Legible.only {cond : Expr} {yes : Stmt} (h : Legible (.branch loc cond yes none) r) :
    Legible yes r :=
  ⟨h.gathered.2, h.proper.2, h.follows, fun l hl => h.closed l (.inr hl)⟩

/-- The first branch is legible in front of the second one. -/
theorem Legible.first {cond : Expr} {yes no : Stmt} {x : List Char}
    (h : Legible (.branch loc cond yes (some no)) r) : Legible yes (mark "else:" ++ x) := by
  obtain ⟨-, hyes, hopen, -⟩ := h.gathered
  refine ⟨hyes, h.proper.2.1, .branch x, fun l hl => ?_⟩
  cases l with
  | statements => simp [mark, itemMark]
  | branches => exact absurd hl hopen

theorem Legible.second {cond : Expr} {yes no : Stmt}
    (h : Legible (.branch loc cond yes (some no)) r) : Legible no r :=
  ⟨h.gathered.2.2.2, h.proper.2.2, h.follows, h.closed⟩

theorem Legible.loopBody {init cond next : Option Expr} {body : Stmt}
    (h : Legible (.loop loc init cond next body) r) : Legible body r :=
  ⟨h.gathered.2.2.2, h.proper.2.2.2, h.follows, h.closed⟩

theorem Legible.foreachBody {name : String} {items : Expr} {body : Stmt} {x : List Char}
    (h : Legible (.foreach loc name items body) r) : Legible body (mark "foreach:" ++ x) := by
  refine ⟨h.gathered.2, h.proper.2.2, .name x, fun l _ => ?_⟩
  cases l <;> simp [mark, itemMark]

theorem Legible.action {paths : Expr} {action : Stmt} (h : Legible (.depends loc paths action) r) :
    Legible action r :=
  ⟨h.gathered.2, h.proper.2, h.follows, h.closed⟩

/-! ## Reading a statement -/

/-- An `if` whose branch may be followed by a second one is told from one whose branch is. -/
theorem Legible.not_second {loc' : Location} {cond cond' : Expr} {yes yes' no : Stmt}
    {r r' : List Char} (h : Legible (.branch loc cond yes none) r)
    (h' : Legible (.branch loc' cond' yes' (some no)) r')
    (ih : ∀ {r₁ r₂ : List Char}, Legible yes r₁ → Legible yes' r₂ →
      yes.written g ++ r₁ = yes'.written g ++ r₂ → yes.unlocated = yes'.unlocated ∧ r₁ = r₂)
    (heq : yes.written g ++ r = yes'.written g ++ (mark "else:" ++ (no.written g ++ r'))) :
    False := by
  obtain ⟨-, hr⟩ := ih h.only h'.first heq
  exact h.closed .branches (.inl rfl) (hr ▸ List.prefix_append _ _)

mutual

/-- A statement is determined up to locations by a text that starts with its fingerprint, and so is
what follows. -/
theorem written_append_inj : ∀ {s₁ s₂ : Stmt} {r₁ r₂ : List Char}, Legible s₁ r₁ → Legible s₂ r₂ →
    s₁.written g ++ r₁ = s₂.written g ++ r₂ → s₁.unlocated = s₂.unlocated ∧ r₁ = r₂
  | .expr _ e₁, s₂, r₁, r₂, h₁, h₂, h => by
    cases s₂ with
    | expr _ e₂ =>
      simp only [written, headed_append] at h
      obtain ⟨rfl, hr⟩ := Expr.written_append_inj (h₁.follows.legible h₁.gathered h₁.proper)
        (h₂.follows.legible h₂.gathered h₂.proper) (headed_inj h).2
      exact ⟨rfl, hr⟩
    | _ => cases nodeKind_eq h
  | .block _ ss, s₂, r₁, r₂, h₁, h₂, h => by
    cases s₂ with
    | block _ ts =>
      simp only [written, headed_append] at h
      obtain ⟨hss, hr⟩ := writtenList_append_inj h₁.block h₂.block (headed_inj h).2
      exact ⟨by simp only [unlocated, hss], hr⟩
    | _ => cases nodeKind_eq h
  | .branch _ cond yes none, s₂, r₁, r₂, h₁, h₂, h => by
    cases s₂ with
    | branch _ cond' yes' no =>
      cases no with
      | none =>
        simp only [written, headed_append, List.append_assoc] at h
        obtain ⟨rfl, h'⟩ := Expr.written_mark_inj
          h₁.gathered.1 h₂.gathered.1 h₁.proper.1 h₂.proper.1 (by decide)
          (List.append_cancel_left (headed_inj h).2)
        obtain ⟨hyes, hr⟩ := written_append_inj h₁.only h₂.only h'
        exact ⟨by simp only [unlocated, hyes], hr⟩
      | some no =>
        simp only [written, headed_append, List.append_assoc] at h
        obtain ⟨rfl, h'⟩ := Expr.written_mark_inj
          h₁.gathered.1 h₂.gathered.1 h₁.proper.1 h₂.proper.1 (by decide)
          (List.append_cancel_left (headed_inj h).2)
        exact (h₁.not_second h₂ written_append_inj h').elim
    | _ => cases nodeKind_eq h
  | .branch _ cond yes (some no), s₂, r₁, r₂, h₁, h₂, h => by
    cases s₂ with
    | branch _ cond' yes' no' =>
      cases no' with
      | none =>
        simp only [written, headed_append, List.append_assoc] at h
        obtain ⟨rfl, h'⟩ := Expr.written_mark_inj
          h₁.gathered.1 h₂.gathered.1 h₁.proper.1 h₂.proper.1 (by decide)
          (List.append_cancel_left (headed_inj h).2)
        have hyes := written_append_inj h₁.first h₂.only h'
        exact absurd (hyes.2 ▸ List.prefix_append _ _) (h₂.closed .branches (.inl rfl))
      | some no' =>
        simp only [written, headed_append, List.append_assoc] at h
        obtain ⟨rfl, h'⟩ := Expr.written_mark_inj
          h₁.gathered.1 h₂.gathered.1 h₁.proper.1 h₂.proper.1 (by decide)
          (List.append_cancel_left (headed_inj h).2)
        obtain ⟨hyes, h''⟩ := written_append_inj h₁.first h₂.first h'
        obtain ⟨hno, hr⟩ := written_append_inj h₁.second h₂.second (List.append_cancel_left h'')
        exact ⟨by simp only [unlocated, hyes, hno], hr⟩
    | _ => cases nodeKind_eq h
  | .loop _ init cond next body, s₂, r₁, r₂, h₁, h₂, h => by
    cases s₂ with
    | loop _ init' cond' next' body' =>
      simp only [written, headed_append, List.append_assoc] at h
      obtain ⟨gi, gc, gn, -⟩ := h₁.gathered
      obtain ⟨gi', gc', gn', -⟩ := h₂.gathered
      obtain ⟨pi, pc, pn, -⟩ := h₁.proper
      obtain ⟨pi', pc', pn', -⟩ := h₂.proper
      have hloop : ∀ x, StartsWith ["loop:"] (mark "loop:" ++ x) := fun x => ⟨_, by simp, x, rfl⟩
      obtain ⟨rfl, hcond⟩ := writtenClause_append_inj "init:" ["while:", "next:", "loop:"]
        (by decide) (by decide) gi gi' pi pi'
        (startsWith_clause (startsWith_clause (hloop _)))
        (startsWith_clause (startsWith_clause (hloop _))) (headed_inj h).2
      obtain ⟨rfl, hnext⟩ := writtenClause_append_inj "while:" ["next:", "loop:"]
        (by decide) (by decide) gc gc' pc pc'
        (startsWith_clause (hloop _)) (startsWith_clause (hloop _)) hcond
      obtain ⟨rfl, hrest⟩ :=
        writtenClause_append_inj "next:" ["loop:"] (by decide) (by decide) gn gn' pn pn'
        (hloop _) (hloop _) hnext
      obtain ⟨hbody, hr⟩ :=
        written_append_inj h₁.loopBody h₂.loopBody (List.append_cancel_left hrest)
      exact ⟨by simp only [unlocated, hbody], hr⟩
    | _ => cases nodeKind_eq h
  | .foreach _ a items body, s₂, r₁, r₂, h₁, h₂, h => by
    cases s₂ with
    | foreach _ b items' body' =>
      simp only [written, headed_append, List.append_assoc] at h
      obtain ⟨rfl, h'⟩ := Expr.written_mark_inj
        h₁.gathered.1 h₂.gathered.1 h₁.proper.2.1 h₂.proper.2.1 (by decide)
        (List.append_cancel_left (headed_inj h).2)
      obtain ⟨hbody, h''⟩ := written_append_inj h₁.foreachBody h₂.foreachBody h'
      obtain ⟨rfl, hr⟩ := name_append_inj h₁.proper.1 h₂.proper.1 h₁.follows h₂.follows
        (List.append_cancel_left h'')
      exact ⟨by simp only [unlocated, hbody], hr⟩
    | _ => cases nodeKind_eq h
  | .breakStmt _, s₂, r₁, r₂, h₁, h₂, h => by
    cases s₂ with
    | breakStmt _ =>
      simp only [written, headed_append, List.nil_append] at h
      exact ⟨rfl, (headed_inj h).2⟩
    | _ => cases nodeKind_eq h
  | .continueStmt _, s₂, r₁, r₂, h₁, h₂, h => by
    cases s₂ with
    | continueStmt _ =>
      simp only [written, headed_append, List.nil_append] at h
      exact ⟨rfl, (headed_inj h).2⟩
    | _ => cases nodeKind_eq h
  | .returnStmt _ v, s₂, r₁, r₂, h₁, h₂, h => by
    cases s₂ with
    | returnStmt _ w =>
      simp only [written, headed_append] at h
      obtain ⟨rfl, hr⟩ := writtenReturn_append_inj h₁.gathered h₂.gathered h₁.proper h₂.proper
        h₁.follows h₂.follows (headed_inj h).2
      exact ⟨rfl, hr⟩
    | _ => cases nodeKind_eq h
  | .depends _ paths action, s₂, r₁, r₂, h₁, h₂, h => by
    cases s₂ with
    | depends _ paths' action' =>
      simp only [written, headed_append, List.append_assoc] at h
      obtain ⟨rfl, h'⟩ := Expr.written_mark_inj
        h₁.gathered.1 h₂.gathered.1 h₁.proper.1 h₂.proper.1 (by decide)
        (List.append_cancel_left (headed_inj h).2)
      obtain ⟨haction, hr⟩ := written_append_inj h₁.action h₂.action h'
      exact ⟨by simp only [unlocated, haction], hr⟩
    | _ => cases nodeKind_eq h
  | .includeStmt _ path, s₂, r₁, r₂, h₁, h₂, h => by
    cases s₂ with
    | includeStmt _ path' =>
      simp only [written, headed_append] at h
      obtain ⟨rfl, hr⟩ := Expr.written_append_inj (h₁.follows.legible h₁.gathered h₁.proper)
        (h₂.follows.legible h₂.gathered h₂.proper) (headed_inj h).2
      exact ⟨rfl, hr⟩
    | _ => cases nodeKind_eq h
  | .usingStmt _ path, s₂, r₁, r₂, h₁, h₂, h => by
    cases s₂ with
    | usingStmt _ path' =>
      simp only [written, headed_append] at h
      obtain ⟨rfl, hr⟩ := Expr.written_append_inj (h₁.follows.legible h₁.gathered h₁.proper)
        (h₂.follows.legible h₂.gathered h₂.proper) (headed_inj h).2
      exact ⟨rfl, hr⟩
    | _ => cases nodeKind_eq h

theorem writtenList_append_inj : ∀ {ss ts : List Stmt} {r₁ r₂ : List Char},
    LegibleList ss r₁ → LegibleList ts r₂ → writtenList g ss ++ r₁ = writtenList g ts ++ r₂ →
      unlocatedAll ss = unlocatedAll ts ∧ r₁ = r₂
  | [], [], _, _, _, _, h => ⟨rfl, by simpa [writtenList] using h⟩
  | [], t :: ts, r₁, r₂, h₁, _, h => by
    simp only [writtenList, List.nil_append, List.append_assoc] at h
    exact absurd (h ▸ mark_prefix_written g t _) h₁.ended
  | s :: ss, [], r₁, r₂, _, h₂, h => by
    simp only [writtenList, List.nil_append, List.append_assoc] at h
    exact absurd (h ▸ mark_prefix_written g s _) h₂.ended
  | s :: ss, t :: ts, r₁, r₂, h₁, h₂, h => by
    simp only [writtenList, List.append_assoc] at h
    obtain ⟨hst, h'⟩ := written_append_inj h₁.head h₂.head h
    obtain ⟨hss, hr⟩ := writtenList_append_inj h₁.tail h₂.tail h'
    exact ⟨by simp only [unlocatedAll, hst, hss], hr⟩

end

end Stmt

end Kiln
