import Kiln.Proofs.Fingerprint.Gather.Tree
import Kiln.Proofs.Fingerprint.Written
import Kiln.Proofs.Memory.Acyclic
import Kiln.Proofs.Text.Numeral
import Kiln.Proofs.Text.Pieces

/-!
# Kiln.Proofs.Fingerprint.Reading.Tree — reading the fingerprint of a value back

A gathered value is determined by what is fingerprinted of it, and so is the place where it ends,
provided that what follows is nothing, or an item that the value does not take
(`encode_append_inj`).  Two values are therefore fingerprinted alike exactly if they are the same
after gathering (`encode_eq_iff`): strings may hold any text, but keys must be plain.
-/

namespace Kiln

open Fingerprint Text

namespace Tree

/-! ## Marks -/

/-- The mark before every item of a container. -/
def Listing.word : Listing → String
  | .elements => "ref:"
  | .entries => "key:"

theorem Listing.word_inj {l k : Listing} {x y : List Char} (h : mark l.word ++ x = mark k.word ++ y) :
    l = k := by
  cases l <;> cases k <;> simp [Listing.word, mark] at h ⊢

theorem toList_encodeElements_nil : (encodeElements []).toList = [] := rfl

theorem toList_encodeElements_cons (t : Tree) (rest : List Tree) :
    (encodeElements (t :: rest)).toList =
      mark Listing.elements.word ++ (t.encode.toList ++ (encodeElements rest).toList) := by
  simp [encodeElements, mark, Listing.word]

theorem toList_encodeEntries_nil : (encodeEntries []).toList = [] := rfl

theorem toList_encodeEntries_cons (k : String) (t : Tree) (rest : List (String × Tree)) :
    (encodeEntries ((k, t) :: rest)).toList =
      mark Listing.entries.word ++ (k.toList ++ (mark "ref:" ++
        (t.encode.toList ++ (encodeEntries rest).toList))) := by
  simp [encodeEntries, mark, Listing.word]

/-- What is written of a value after its header. -/
def payload : Tree → String
  | .void => ""
  | .int n => Numeral.decimal n
  | .str s => s
  | .array ts => encodeElements ts
  | .dict ps => encodeEntries ps

theorem encode_eq (t : Tree) : t.encode = Digest.header t.tag ++ t.payload := by
  cases t with
  | void => simp only [encode, tag, payload, String.append_empty]
  | int | str | array | dict => simp only [encode, tag, payload]

theorem colon_notMem_tag (t : Tree) : ':' ∉ t.tag.toList := by
  cases t <;> simp only [tag] <;> decide

/-- The header tells the type. -/
theorem payload_of_encode {t u : Tree} {r₁ r₂ : List Char}
    (h : t.encode.toList ++ r₁ = u.encode.toList ++ r₂) :
    t.tag = u.tag ∧ t.payload.toList ++ r₁ = u.payload.toList ++ r₂ := by
  simp only [encode_eq, String.toList_append, List.append_assoc] at h
  exact header_append_inj (colon_notMem_tag t) (colon_notMem_tag u) h

/-- A plain key ends where the first value after it begins. -/
theorem key_append_inj {k k' : String} {t t' : Tree} {x y : List Char} (hk : PlainKey k)
    (hk' : PlainKey k') (h : k.toList ++ (mark "ref:" ++ (t.encode.toList ++ x)) =
      k'.toList ++ (mark "ref:" ++ (t'.encode.toList ++ y))) :
    k = k' ∧ t.encode.toList ++ x = t'.encode.toList ++ y := by
  have hend : keyEnd.toList = 'r' :: "ef:class:".toList := rfl
  have hsplit (t : Tree) (x : List Char) : mark "ref:" ++ (t.encode.toList ++ x) =
      'r' :: "ef:class:".toList ++ (t.tag.toList ++ (":args:".toList ++ (t.payload.toList ++ x))) := by
    simp [encode_eq, Digest.header, mark]
  rw [PlainKey, hend] at hk hk'
  rw [hsplit, hsplit] at h
  obtain ⟨hkey, htext⟩ := Pieces.append_word_inj (by decide) hk hk' h
  refine ⟨String.toList_injective hkey, ?_⟩
  simp only [encode_eq, Digest.header, String.toList_append, List.append_assoc]
  rw [htext]

/-! ## What may follow -/

/-- The text is empty, or starts with an item of a kind that is not taken. -/
inductive Clear (takes : Listing → Prop) : List Char → Prop
  | empty : Clear takes []
  | item {l : Listing} (x : List Char) : ¬ takes l → Clear takes (mark l.word ++ x)

namespace Clear

variable {takes takes' : Listing → Prop} {r : List Char}

theorem mono (h : Clear takes r) (hle : ∀ l, takes' l → takes l) : Clear takes' r := by
  cases h with
  | empty => exact .empty
  | item x hl => exact .item x fun h => hl (hle _ h)

/-- An item of a kind that is taken does not follow. -/
theorem not_item {l : Listing} {x : List Char} (hl : takes l) : ¬ Clear takes (mark l.word ++ x) := by
  intro h
  generalize htext : mark l.word ++ x = r at h
  cases h with
  | empty => cases l <;> simp [Listing.word, mark] at htext
  | item y hk => exact hk (Listing.word_inj htext ▸ hl)

theorem eq_nil (h : Clear takes r) (hall : ∀ l, takes l) : r = [] := by
  cases h with
  | empty => rfl
  | item x hl => exact absurd (hall _) hl

theorem noDigit (h : Clear takes r) : Numeral.NoDigit r := by
  cases h with
  | empty => nofun
  | @item l x _ => cases l <;> simp [Numeral.NoDigit, Listing.word, mark]

end Clear

/-- What takes items at the end of a list of values: the list itself, or its last value. -/
def OpenElements (ts : List Tree) (l : Listing) : Prop := l = .elements ∨ LastTakes l ts

/-- What takes items at the end of a list of entries: the list itself, or its last value. -/
def OpenEntries (ps : List (String × Tree)) (l : Listing) : Prop := l = .entries ∨ LastEntryTakes l ps

section Lists

variable {t : Tree} {k : String} {ts : List Tree} {ps : List (String × Tree)} {r : List Char}

theorem Clear.headElement (h : Clear (OpenElements (t :: ts)) r) (hts : GatheredList (t :: ts)) :
    Clear (Takes · t) ((encodeElements ts).toList ++ r) := by
  cases ts with
  | nil =>
    have hr : Clear (Takes · t) r := h.mono fun l hl => .inr hl
    simpa [encodeElements] using hr
  | cons u rest =>
    rw [toList_encodeElements_cons, List.append_assoc]
    exact .item _ (hts.2.1 (by simp))

theorem Clear.tailElements (h : Clear (OpenElements (t :: ts)) r) : Clear (OpenElements ts) r := by
  refine h.mono fun l hl => ?_
  cases ts with
  | nil => exact .inl (hl.resolve_right id)
  | cons u rest => exact hl

theorem Clear.headEntry (h : Clear (OpenEntries ((k, t) :: ps)) r)
    (hps : GatheredEntries ((k, t) :: ps)) :
    Clear (Takes · t) ((encodeEntries ps).toList ++ r) := by
  cases ps with
  | nil =>
    have hr : Clear (Takes · t) r := h.mono fun l hl => .inr hl
    simpa [encodeEntries] using hr
  | cons q rest =>
    rw [toList_encodeEntries_cons, List.append_assoc]
    exact .item _ (hps.2.2.1 (by simp))

theorem Clear.tailEntries (h : Clear (OpenEntries ((k, t) :: ps)) r) : Clear (OpenEntries ps) r := by
  refine h.mono fun l hl => ?_
  cases ps with
  | nil => exact .inl (hl.resolve_right id)
  | cons q rest => exact hl

end Lists

/-! ## Reading a value -/

mutual

/-- A gathered value is determined by a text that starts with what is fingerprinted of it, and so is
what follows. -/
theorem encode_append_inj : ∀ {t u : Tree} {r₁ r₂ : List Char}, t.Gathered → u.Gathered →
    Clear (Takes · t) r₁ → Clear (Takes · u) r₂ →
      t.encode.toList ++ r₁ = u.encode.toList ++ r₂ → t = u ∧ r₁ = r₂
  | .void, u, r₁, r₂, _, _, _, _, h => by
    obtain ⟨htag, hrest⟩ := payload_of_encode h
    cases u with
    | void => exact ⟨rfl, by simpa [payload] using hrest⟩
    | int | str | array | dict => simp [tag] at htag
  | .int m, u, r₁, r₂, _, _, h₁, h₂, h => by
    obtain ⟨htag, hrest⟩ := payload_of_encode h
    cases u with
    | int n =>
      obtain ⟨rfl, hr⟩ := Numeral.decimal_append_inj h₁.noDigit h₂.noDigit hrest
      exact ⟨rfl, hr⟩
    | void | str | array | dict => simp [tag] at htag
  | .str s, u, r₁, r₂, _, _, h₁, h₂, h => by
    obtain ⟨htag, hrest⟩ := payload_of_encode h
    cases u with
    | str s' =>
      -- nothing stands behind a string, because the string would take it
      obtain rfl := h₁.eq_nil fun _ => trivial
      obtain rfl := h₂.eq_nil fun _ => trivial
      have hs : s = s' := String.toList_injective (by simpa [payload] using hrest)
      exact ⟨by rw [hs], rfl⟩
    | void | int | array | dict => simp [tag] at htag
  | .array ts, u, r₁, r₂, ht, hu, h₁, h₂, h => by
    obtain ⟨htag, hrest⟩ := payload_of_encode h
    cases u with
    | array us =>
      obtain ⟨rfl, hr⟩ := encodeElements_append_inj ht hu h₁ h₂ hrest
      exact ⟨rfl, hr⟩
    | void | int | str | dict => simp [tag] at htag
  | .dict ps, u, r₁, r₂, ht, hu, h₁, h₂, h => by
    obtain ⟨htag, hrest⟩ := payload_of_encode h
    cases u with
    | dict qs =>
      obtain ⟨rfl, hr⟩ := encodeEntries_append_inj ht hu h₁ h₂ hrest
      exact ⟨rfl, hr⟩
    | void | int | str | array => simp [tag] at htag

theorem encodeElements_append_inj : ∀ {ts us : List Tree} {r₁ r₂ : List Char}, GatheredList ts →
    GatheredList us → Clear (OpenElements ts) r₁ → Clear (OpenElements us) r₂ →
      (encodeElements ts).toList ++ r₁ = (encodeElements us).toList ++ r₂ → ts = us ∧ r₁ = r₂
  | [], [], _, _, _, _, _, _, h => ⟨rfl, by simpa [encodeElements] using h⟩
  | [], u :: us, r₁, r₂, _, _, h₁, _, h => by
    rw [toList_encodeElements_cons, List.append_assoc, toList_encodeElements_nil, List.nil_append] at h
    rw [h] at h₁
    exact absurd h₁ (Clear.not_item (.inl rfl))
  | t :: ts, [], r₁, r₂, _, _, _, h₂, h => by
    rw [toList_encodeElements_cons, List.append_assoc, toList_encodeElements_nil, List.nil_append] at h
    rw [← h] at h₂
    exact absurd h₂ (Clear.not_item (.inl rfl))
  | t :: ts, u :: us, r₁, r₂, ht, hu, h₁, h₂, h => by
    simp only [toList_encodeElements_cons, List.append_assoc] at h
    obtain ⟨rfl, hrest⟩ := encode_append_inj ht.1 hu.1 (h₁.headElement ht) (h₂.headElement hu)
      (List.append_cancel_left h)
    obtain ⟨rfl, hr⟩ :=
      encodeElements_append_inj ht.2.2 hu.2.2 h₁.tailElements h₂.tailElements hrest
    exact ⟨rfl, hr⟩

theorem encodeEntries_append_inj : ∀ {ps qs : List (String × Tree)} {r₁ r₂ : List Char},
    GatheredEntries ps → GatheredEntries qs → Clear (OpenEntries ps) r₁ →
      Clear (OpenEntries qs) r₂ →
      (encodeEntries ps).toList ++ r₁ = (encodeEntries qs).toList ++ r₂ → ps = qs ∧ r₁ = r₂
  | [], [], _, _, _, _, _, _, h => ⟨rfl, by simpa [encodeEntries] using h⟩
  | [], (k, u) :: qs, r₁, r₂, _, _, h₁, _, h => by
    rw [toList_encodeEntries_cons, List.append_assoc, toList_encodeEntries_nil, List.nil_append] at h
    rw [h] at h₁
    exact absurd h₁ (Clear.not_item (.inl rfl))
  | (k, t) :: ps, [], r₁, r₂, _, _, _, h₂, h => by
    rw [toList_encodeEntries_cons, List.append_assoc, toList_encodeEntries_nil, List.nil_append] at h
    rw [← h] at h₂
    exact absurd h₂ (Clear.not_item (.inl rfl))
  | (k, t) :: ps, (k', u) :: qs, r₁, r₂, ht, hu, h₁, h₂, h => by
    simp only [toList_encodeEntries_cons, List.append_assoc] at h
    obtain ⟨rfl, hvalue⟩ := key_append_inj ht.1 hu.1 (List.append_cancel_left h)
    obtain ⟨rfl, hrest⟩ := encode_append_inj ht.2.1 hu.2.1 (h₁.headEntry ht) (h₂.headEntry hu) hvalue
    obtain ⟨rfl, hr⟩ :=
      encodeEntries_append_inj ht.2.2.2 hu.2.2.2 h₁.tailEntries h₂.tailEntries hrest
    exact ⟨rfl, hr⟩

end

/-- Gathered values are told apart by their fingerprints. -/
theorem encode_inj {t u : Tree} (ht : t.Gathered) (hu : u.Gathered) (h : t.encode = u.encode) :
    t = u := by
  have htext : t.encode.toList ++ [] = u.encode.toList ++ [] := by rw [h]
  exact (encode_append_inj ht hu .empty .empty htext).1

/-- Values with plain keys are fingerprinted alike exactly if they are the same after gathering. -/
theorem encode_eq_iff {t u : Tree} (ht : t.PlainKeys) (hu : u.PlainKeys) :
    t.encode = u.encode ↔ t.gather = u.gather := by
  constructor
  · intro h
    refine encode_inj (gathered_gather ht) (gathered_gather hu) ?_
    rw [encode_gather, encode_gather, h]
  · intro h
    rw [← encode_gather t, h, encode_gather]

/-- A string takes whatever is written behind it. -/
example : (Tree.array [.str "a", .str "b"]).gather =
    .array [.str "aref:class:string:args:b"] := by rfl

end Tree

/-! ## Values in memory -/

namespace Memory

/-- Values that are not inside of themselves have a fingerprint.  Two of them are fingerprinted alike
if they look the same with every item moved to where it is read; with plain keys, only then.  So two
values in which every item stands where it is read are fingerprinted alike only if they look the
same. -/
theorem encode_eq_iff_gather_eq {m m' : Memory} {v w : Value} (hv : m.Acyclic v)
    (hw : m'.Acyclic w) : ∃ t u, m.tree? v = some t ∧ m'.tree? w = some u ∧
      (t.gather = u.gather → t.encode = u.encode) ∧
      (t.PlainKeys → u.PlainKeys → t.encode = u.encode → t.gather = u.gather) ∧
      (t.Gathered → u.Gathered → t.encode = u.encode → t = u) := by
  obtain ⟨t, ht⟩ := hv.tree
  obtain ⟨u, hu⟩ := hw.tree
  refine ⟨t, u, ht, hu, fun hgather => ?_, fun hkeys hkeys' hencode => ?_, fun hg hg' hencode => ?_⟩
  · rw [← Tree.encode_gather t, hgather, Tree.encode_gather]
  · exact (Tree.encode_eq_iff hkeys hkeys').mp hencode
  · exact Tree.encode_inj hg hg' hencode

/-- `[[1], 2]` and `[[1, 2]]`. -/
def nestings : Memory :=
  ⟨#[.int 1, .array ⟨0⟩, .int 2, .array ⟨2⟩, .int 1, .int 2],
    #[#[⟨0⟩], #[⟨1⟩, ⟨2⟩], #[⟨4⟩, ⟨5⟩], #[⟨3⟩]], #[], #[]⟩

theorem nestings_acyclic {a : ArrayId} (ha : a.index < 4) : nestings.Acyclic (.array a) :=
  acyclic_of_older (by decide) (by decide) rfl ha

/-- The two arrays look different, and are fingerprinted alike. -/
theorem encode_eq_iff_gather_eq_nestings :
    nestings.Acyclic (.array ⟨1⟩) ∧ nestings.Acyclic (.array ⟨3⟩) ∧
      ∃ t u, nestings.tree? (.array ⟨1⟩) = some t ∧ nestings.tree? (.array ⟨3⟩) = some u ∧
        t.encode = u.encode ∧ t ≠ u := by
  have hv : nestings.Acyclic (.array ⟨1⟩) := nestings_acyclic (by decide)
  have hw : nestings.Acyclic (.array ⟨3⟩) := nestings_acyclic (by decide)
  obtain ⟨t, u, ht, hu, halike, -⟩ := encode_eq_iff_gather_eq hv hw
  have htree : nestings.tree? (.array ⟨1⟩) = some (.array [.array [.int 1], .int 2]) := by rfl
  have htree' : nestings.tree? (.array ⟨3⟩) = some (.array [.array [.int 1, .int 2]]) := by rfl
  obtain rfl := Option.some.inj (htree.symm.trans ht)
  obtain rfl := Option.some.inj (htree'.symm.trans hu)
  exact ⟨hv, hw, _, _, ht, hu, halike rfl, by simp⟩

end Memory

end Kiln
