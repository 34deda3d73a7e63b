import Mathlib.Data.List.Forall2
import Mathlib.Data.List.Infix
import Kiln.Text.Regex

/-!
# Kiln.Proofs.Text.Regex — what regular expressions are found in

`Library.Documented` is what the documentation of regular expressions says of the few parts that
occur here, as hypotheses on a library: how an expression is spelled (`Spells`), what its parts take of
a text (`Takes`), and that a text that was escaped is a literal.  It says nothing of which expressions
are compiled, because a library may refuse one that is too large.

An expression with both anchors is found in a text if the items between them take all of it
(`found_anchored`).  The library `anchored` is as documented.
-/

namespace Kiln.Text.Regex

/-! ## What an expression means -/

/-- A part of an expression, where the flag `s` is set and `m` is not. -/
inductive Atom where
  /-- The start of the text. -/
  | start
  /-- The end of the text. -/
  | finish
  /-- Any character, a line feed too. -/
  | any
  /-- Any run of characters. -/
  | anyRun
  /-- A character of a class that has none. -/
  | nothing
  | literal (c : Char)

/-- A character as it is, or with a backslash. -/
inductive Quotes (c : Char) : List Char → Prop
  | plain (h : c ∉ significant) : Quotes c [c]
  | quoted (h : isQuotable c = true) : Quotes c ['\\', c]

/-- How a part is written. -/
inductive Names : List Char → Atom → Prop
  | start : Names ['^'] .start
  | finish : Names ['$'] .finish
  | any : Names ['.'] .any
  | anyRun : Names ['.', '*'] .anyRun
  | nothing : Names ['[', '^', '\\', 's', '\\', 'S', ']'] .nothing
  | literal {piece : List Char} {c : Char} (h : Quotes c piece) : Names piece (.literal c)

/-- Nothing in front repeats or is made lazy by what follows. -/
def NoRepeat (rest : List Char) : Prop :=
  ∀ c, rest.head? = some c → c ∉ ['*', '+', '?', '\x7b']

/-- The parts an expression is put together from, from the left. -/
inductive Spells : List Char → List Atom → Prop
  | nil : Spells [] []
  | cons {piece rest : List Char} {a : Atom} {as : List Atom} (ha : Names piece a)
    (hrest : NoRepeat rest) (h : Spells rest as) : Spells (piece ++ rest) (a :: as)

theorem noRepeat_nil : NoRepeat [] := fun _ => nofun

/-- No part begins with what repeats the one in front of it. -/
theorem Names.noRepeat {piece : List Char} {a : Atom} (h : Names piece a) (rest : List Char) :
    NoRepeat (piece ++ rest) := by
  intro c hc
  have hfirst : piece.head? = some c := by
    cases h with
    | literal hquote => cases hquote <;> exact hc
    | _ => exact hc
  cases h with
  | literal hquote =>
    cases hquote with
    | plain hplain =>
      obtain rfl := Option.some.inj hfirst
      intro hmem
      refine hplain ?_
      revert hmem
      simp [significant]
      tauto
    | quoted _ =>
      obtain rfl := Option.some.inj hfirst
      decide
  | _ =>
    obtain rfl := Option.some.inj hfirst
    decide

theorem Spells.noRepeat {text : List Char} {as : List Atom} (h : Spells text as) : NoRepeat text := by
  cases h with
  | nil => exact noRepeat_nil
  | cons ha _ _ => exact ha.noRepeat _

/-- The parts of an expression take `middle`, one after the other, where it stands between `before`
and `after`. -/
inductive Takes : List Atom → List Char → List Char → List Char → Prop
  | nil (before after : List Char) : Takes [] before [] after
  | start {as : List Atom} {middle after : List Char} (h : Takes as [] middle after) :
    Takes (.start :: as) [] middle after
  | finish {as : List Atom} {before : List Char} (h : Takes as before [] []) :
    Takes (.finish :: as) before [] []
  | any {as : List Atom} {before middle after : List Char} (c : Char)
    (h : Takes as (before ++ [c]) middle after) : Takes (.any :: as) before (c :: middle) after
  | anyRun {as : List Atom} {before middle after : List Char} (run : List Char)
    (h : Takes as (before ++ run) middle after) : Takes (.anyRun :: as) before (run ++ middle) after
  | literal {as : List Atom} {before middle after : List Char} (c : Char)
    (h : Takes as (before ++ [c]) middle after) :
    Takes (.literal c :: as) before (c :: middle) after

/-- Somewhere in the text is a piece that the parts take. -/
def Found (as : List Atom) (text : List Char) : Prop :=
  ∃ before middle after, text = before ++ (middle ++ after) ∧ Takes as before middle after

/-- What the documentation of a library says. -/
structure Library.Documented (lib : Library) : Prop where
  /-- What was escaped stands for itself. -/
  escape : ∀ c, Quotes c (lib.escape (String.singleton c)).toList
  /-- An expression that was compiled is found where its parts say. -/
  find : ∀ {body : List Char} {as : List Atom} {isMatch : String → Bool}, Spells body as →
    lib.compile (String.ofList ("(?s)".toList ++ body)) = .ok isMatch →
    ∀ text, isMatch text = true ↔ Found as text.toList

/-! ## Expressions for whole texts -/

/-- The item takes the piece of text. -/
inductive Item.Takes : Item → List Char → Prop
  | run (piece : List Char) : Takes .run piece
  | one (c : Char) : Takes .one [c]
  | exactly (c : Char) : Takes (.exactly c) [c]

/-- The text is made up of pieces that the items take, one after the other. -/
def TakeAll (its : List Item) (text : List Char) : Prop :=
  ∃ pieces : List (List Char), pieces.flatten = text ∧ List.Forall₂ Item.Takes its pieces

theorem takeAll_nil {text : List Char} : TakeAll [] text ↔ text = [] := by
  constructor
  · rintro ⟨pieces, rfl, hpieces⟩
    cases hpieces
    rfl
  · rintro rfl
    exact ⟨[], rfl, .nil⟩

/-- The first item takes a front of the text, and the others take what comes behind it. -/
theorem takeAll_cons {item : Item} {its : List Item} {text : List Char} :
    TakeAll (item :: its) text ↔
      ∃ piece rest, text = piece ++ rest ∧ item.Takes piece ∧ TakeAll its rest := by
  constructor
  · rintro ⟨pieces, rfl, hpieces⟩
    cases hpieces with
    | cons hitem hrest => exact ⟨_, _, List.flatten_cons, hitem, _, rfl, hrest⟩
  · rintro ⟨piece, rest, rfl, hitem, pieces, rfl, hrest⟩
    exact ⟨piece :: pieces, List.flatten_cons, .cons hitem hrest⟩

/-- The part of an expression for an item. -/
def Item.atom : Item → Atom
  | run => .anyRun
  | one => .any
  | exactly c => .literal c
  | never => .nothing

/-- The parts for items and the end of the text take what is left of it. -/
theorem takes_atoms {its : List Item} {before middle after : List Char} :
    Takes (its.map Item.atom ++ [.finish]) before middle after ↔ after = [] ∧ TakeAll its middle := by
  induction its generalizing before middle with
  | nil =>
    rw [takeAll_nil]
    constructor
    · intro h
      cases h with
      | finish _ => exact ⟨rfl, rfl⟩
    · rintro ⟨rfl, rfl⟩
      exact .finish (.nil before [])
  | cons item its ih =>
    rw [takeAll_cons]
    constructor
    · intro h
      cases item with
      | run =>
        cases h with
        | anyRun run h =>
          obtain ⟨rfl, hrest⟩ := ih.mp h
          exact ⟨rfl, run, _, rfl, .run run, hrest⟩
      | one =>
        cases h with
        | any c h =>
          obtain ⟨rfl, hrest⟩ := ih.mp h
          exact ⟨rfl, [c], _, rfl, .one c, hrest⟩
      | exactly c =>
        cases h with
        | literal _ h =>
          obtain ⟨rfl, hrest⟩ := ih.mp h
          exact ⟨rfl, [c], _, rfl, .exactly c, hrest⟩
      | never => cases h
    · rintro ⟨hafter, piece, rest, rfl, hitem, hrest⟩
      have h (before' : List Char) :
          Takes (its.map Item.atom ++ [.finish]) before' rest after := ih.mpr ⟨hafter, hrest⟩
      cases hitem with
      | run => exact .anyRun piece (h _)
      | one c => exact .any c (h _)
      | exactly c => exact .literal c (h _)

/-- An expression with both anchors is found in the texts that its items take as a whole. -/
theorem found_anchored {its : List Item} {text : List Char} :
    Found (.start :: (its.map Item.atom ++ [.finish])) text ↔ TakeAll its text := by
  constructor
  · rintro ⟨before, middle, after, rfl, h⟩
    cases h with
    | start h =>
      obtain ⟨rfl, htake⟩ := takes_atoms.mp h
      simpa using htake
  · intro h
    exact ⟨[], text, [], by simp, .start (takes_atoms.mpr ⟨rfl, h⟩)⟩

/-! ## The matcher -/

/-- Whether an item and more items take a text, where `more` tells it of those. -/
def Item.before (more : List Char → Bool) : Item → List Char → Bool
  | run, text => text.tails.any more
  | one, [] => false
  | one, _ :: rest => more rest
  | exactly _, [] => false
  | exactly c, c' :: rest => c' == c && more rest
  | never, _ => false

/-- Whether the items take a text, found by trying every cut. -/
def takeAll : List Item → List Char → Bool
  | [], text => text.isEmpty
  | item :: its, text => item.before (takeAll its) text

theorem Item.before_iff {item : Item} {more : List Char → Bool} {text : List Char} :
    item.before more text = true ↔
      ∃ piece rest, text = piece ++ rest ∧ item.Takes piece ∧ more rest = true := by
  constructor
  · intro h
    cases item with
    | run =>
      obtain ⟨rest, htail, hrest⟩ := List.any_eq_true.mp h
      obtain ⟨piece, rfl⟩ := (List.mem_tails _ _).mp htail
      exact ⟨piece, rest, rfl, .run piece, hrest⟩
    | one =>
      cases text with
      | nil => cases h
      | cons c rest => exact ⟨[c], rest, rfl, .one c, h⟩
    | exactly c =>
      cases text with
      | nil => cases h
      | cons c' rest =>
        obtain ⟨hc, hrest⟩ := (Bool.and_eq_true _ _).mp h
        obtain rfl := beq_iff_eq.mp hc
        exact ⟨[c'], rest, rfl, .exactly c', hrest⟩
    | never => cases h
  · rintro ⟨piece, rest, rfl, hitem, hrest⟩
    cases hitem with
    | run =>
      have htail : rest ∈ (piece ++ rest).tails := (List.mem_tails _ _).mpr ⟨piece, rfl⟩
      exact List.any_eq_true.mpr ⟨rest, htail, hrest⟩
    | one c => exact hrest
    | exactly c => simpa [Item.before] using hrest

theorem takeAll_iff {its : List Item} {text : List Char} :
    takeAll its text = true ↔ TakeAll its text := by
  induction its generalizing text with
  | nil => rw [takeAll_nil, takeAll, List.isEmpty_iff]
  | cons item its ih => rw [takeAll, Item.before_iff, takeAll_cons]; simp only [ih]

theorem emptyEnds_eq (text : List Char) : emptyEnds text = text.tails.map List.isEmpty := by
  induction text with
  | nil => rfl
  | cons c text ih =>
    rw [List.tails_cons, List.map_cons, ← ih]
    rfl

theorem headD_map_tails (f : List Char → Bool) (text : List Char) :
    (text.tails.map f).headD false = f text := by
  cases text <;> rfl

theorem anyLater_tails (f : List Char → Bool) (text : List Char) :
    anyLater (text.tails.map f) = text.tails.map fun rest => rest.tails.any f := by
  induction text with
  | nil => simp [anyLater]
  | cons c text ih =>
    have hcons (b : Bool) (bs : List Bool) :
        anyLater (b :: bs) = (b || (anyLater bs).headD false) :: anyLater bs := rfl
    rw [List.tails_cons, List.map_cons, hcons, ih, headD_map_tails, List.map_cons, List.tails_cons,
      List.any_cons]

/-- Where the marks tell what some items take, the next marks tell what one item more takes. -/
theorem Item.extend_tails (item : Item) (f : List Char → Bool) (text : List Char) :
    item.extend text (text.tails.map f) = text.tails.map (item.before f) := by
  cases item with
  | run => exact anyLater_tails f text
  | one =>
    induction text with
    | nil => rfl
    | cons c text ih =>
      rw [List.tails_cons, List.map_cons, List.map_cons, ← ih]
      cases text <;> rfl
  | exactly c =>
    induction text with
    | nil => rfl
    | cons c' text ih =>
      rw [List.tails_cons, List.map_cons, List.map_cons, ← ih]
      cases text <;> rfl
  | never =>
    show (text.tails.map f).map (fun _ => false) = text.tails.map fun _ => false
    rw [List.map_map]
    rfl

theorem takes_eq (text : List Char) (its : List Item) :
    takes text its = text.tails.map (takeAll its) := by
  induction its with
  | nil => exact emptyEnds_eq text
  | cons item its ih =>
    have hfold : takes text (item :: its) = item.extend text (takes text its) := rfl
    rw [hfold, ih, Item.extend_tails]
    rfl

theorem matches?_iff {its : List Item} {text : String} :
    matches? its text = true ↔ TakeAll its text.toList := by
  rw [matches?, takes_eq, headD_map_tails, takeAll_iff]

/-! ## The library of anchored expressions -/

theorem item?_dot {rest : List Char} (h : NoRepeat rest) :
    item? ('.' :: rest) = some (.one, rest) := by
  unfold item?
  dsimp only
  rw [if_pos rfl]
  split
  · exact absurd (by simp) (h '*' rfl)
  · rfl

theorem item?_plain {c : Char} (rest : List Char) (h : c ∉ significant) :
    item? (c :: rest) = some (.exactly c, rest) := by
  have hne (d : Char) (hd : d ∈ significant) : c ≠ d := fun hc => h (hc ▸ hd)
  unfold item?
  dsimp only
  rw [if_neg (hne '.' (by decide)), if_neg (hne '[' (by decide)),
    if_neg (hne '\\' (by decide)), if_neg h]

/-- The first part of an expression is the one that is read, unless it is an anchor. -/
theorem Names.item?_eq {piece rest : List Char} {a : Atom} {item : Item} {more : List Char}
    (h : Names piece a) (hrest : NoRepeat rest) (hitem : item? (piece ++ rest) = some (item, more)) :
    item.atom = a ∧ more = rest := by
  have hsame {first : Item} (hread : some (first, rest) = some (item, more)) :
      item.atom = first.atom ∧ more = rest := by
    cases hread
    exact ⟨rfl, rfl⟩
  cases h with
  | start => simp [item?, significant] at hitem
  | finish => simp [item?, significant] at hitem
  | any => exact hsame ((item?_dot hrest).symm.trans hitem)
  | anyRun => exact hsame hitem
  | nothing => exact hsame hitem
  | literal hquote =>
    cases hquote with
    | plain hc => exact hsame ((item?_plain rest hc).symm.trans hitem)
    | quoted hc => exact hsame (by simpa [item?, hc] using hitem)

theorem items?_eq_some {bound : Nat} {text : List Char} {its : List Item}
    (h : items? bound text = some its) : (text = ['$'] ∧ its = []) ∨
      ∃ item rest more, item? text = some (item, rest) ∧ its = item :: more ∧
        ∃ bound', items? bound' rest = some more := by
  unfold items? at h
  split at h
  · exact .inl ⟨rfl, (Option.some.inj h).symm⟩
  · cases h
  · simp only [Option.bind_eq_bind, Option.bind_eq_some_iff, Option.pure_def, Option.some.injEq,
      Prod.exists] at h
    obtain ⟨item, rest, hitem, more, hmore, rfl⟩ := h
    exact .inr ⟨item, rest, more, hitem, rfl, _, hmore⟩

theorem Names.ne_nil {piece : List Char} {a : Atom} (h : Names piece a) : piece ≠ [] := by
  cases h with
  | literal hquote => cases hquote <;> simp
  | _ => simp

theorem Spells.eq_nil {as : List Atom} (h : Spells [] as) : as = [] := by
  generalize htext : ([] : List Char) = text at h
  cases h with
  | nil => rfl
  | cons ha _ _ => exact absurd (List.append_eq_nil_iff.mp htext.symm).1 ha.ne_nil

theorem Spells.finish {as : List Atom} (h : Spells ['$'] as) : as = [.finish] := by
  generalize htext : ['$'] = text at h
  cases h with
  | nil => cases htext
  | @cons piece rest a as ha hrest h =>
    obtain ⟨rfl, rfl⟩ : piece = ['$'] ∧ rest = [] := by
      cases piece with
      | nil => exact absurd rfl ha.ne_nil
      | cons c piece =>
        obtain ⟨rfl, hnil⟩ := List.cons.inj htext
        obtain ⟨rfl, rfl⟩ := List.append_eq_nil_iff.mp hnil.symm
        exact ⟨rfl, rfl⟩
    obtain rfl := h.eq_nil
    cases ha with
    | finish => rfl
    | literal hquote =>
      cases hquote with
      | plain hc => exact absurd (by decide) hc

/-- What is read of an expression is how it is spelled. -/
theorem Spells.eq_of_items? {bound : Nat} {body : List Char} {as : List Atom} {its : List Item}
    (h : Spells body as) (hits : items? bound body = some its) :
    as = its.map Item.atom ++ [.finish] := by
  induction h generalizing bound its with
  | nil =>
    rcases items?_eq_some hits with ⟨hnil, -⟩ | ⟨item, rest, more, hitem, -⟩
    · cases hnil
    · cases hitem
  | @cons piece rest a as ha hrest h ih =>
    rcases items?_eq_some hits with ⟨hlast, rfl⟩ | ⟨item, rest', more, hitem, rfl, bound', hmore⟩
    · exact Spells.finish (hlast ▸ .cons ha hrest h)
    · obtain ⟨hatom, rfl⟩ := ha.item?_eq hrest hitem
      rw [List.map_cons, List.cons_append, hatom, ← ih hmore]

theorem quotes_escapeChar (c : Char) : Quotes c (escapeChar c) := by
  have hquotable : significant.all isQuotable = true := by decide
  unfold escapeChar
  split
  · rename_i h
    exact .quoted (List.all_eq_true.mp hquotable c h)
  · rename_i h
    exact .plain h

/-- What is compiled is an expression for whole texts. -/
theorem anchored_compile {text : String} {isMatch : String → Bool}
    (h : anchored.compile text = .ok isMatch) : ∃ rest its,
      text.toList = "(?s)^".toList ++ rest ∧ items? rest.length rest = some its ∧
        isMatch = matches? its := by
  unfold anchored at h
  dsimp only at h
  split at h
  · rename_i rest htext
    split at h
    · rename_i its hits
      exact ⟨rest, its, htext, hits, (Except.ok.inj h).symm⟩
    · cases h
  · cases h

theorem Spells.start {rest : List Char} {as : List Atom} (h : Spells ('^' :: rest) as) :
    ∃ more, as = .start :: more ∧ Spells rest more := by
  generalize htext : '^' :: rest = text at h
  cases h with
  | nil => cases htext
  | @cons piece rest' a as ha hrest h =>
    cases ha with
    | start => exact ⟨as, rfl, (List.cons.inj htext).2 ▸ h⟩
    | literal hquote =>
      cases hquote with
      | plain hc =>
        cases htext
        exact absurd (by decide) hc
      | quoted _ => cases htext
    | _ => cases htext

theorem documented_anchored : anchored.Documented where
  escape c := by
    have hescape : (anchored.escape (String.singleton c)).toList = escapeChar c := by
      simp [anchored]
    rw [hescape]
    exact quotes_escapeChar c
  find := by
    intro body as isMatch hspells hcompile text
    obtain ⟨rest, its, htext, hits, rfl⟩ := anchored_compile hcompile
    obtain rfl : body = '^' :: rest := by simpa using htext
    obtain ⟨more, rfl, hmore⟩ := hspells.start
    rw [hmore.eq_of_items? hits, found_anchored, matches?_iff]

end Kiln.Text.Regex
