import Mathlib
import Kiln.Machine
import Kiln.Proofs.Fingerprint.Reading.Stmt

/-!
# Kiln.Proofs.Fingerprint.Collisions — statements with one fingerprint

Gathering does not change a fingerprint, and gathered statements are told apart by theirs, so two
statements share a fingerprint exactly if they are the same once gathered.
-/

namespace Kiln

open Fingerprint

namespace Expr

variable {g : Glossary}

/-! ## Expressions -/

/-- The characters of an item. -/
def Item.written (g : Glossary) : Item → List Char
  | element e => mark ":elem:" ++ e.written g
  | entry k v => mark ":key:" ++ k.written g ++ mark ":value:" ++ v.written g
  | argument e => mark ":arg:" ++ e.written g

theorem writtenList_concat (label : String) (e : Expr) (es : List Expr) :
    writtenList g label (es ++ [e]) = writtenList g label es ++ (mark label ++ e.written g) := by
  induction es with
  | nil => simp [writtenList]
  | cons a rest ih => simp [writtenList, ih]

theorem writtenEntries_concat (k v : Expr) (ps : List (Expr × Expr)) :
    writtenEntries g (ps ++ [(k, v)]) =
      writtenEntries g ps ++ (mark ":key:" ++ k.written g ++ mark ":value:" ++ v.written g) := by
  induction ps with
  | nil => simp [writtenEntries]
  | cons p rest ih =>
    obtain ⟨a, b⟩ := p
    simp [writtenEntries, ih]

mutual

/-- What takes an item is written as before, with the item behind it. -/
theorem written_take? {i : Item} : ∀ {e e' : Expr}, take? i e = some e' →
    e'.written g = e.written g ++ i.written g
  | .const _, _, h | .var _, _, h => by simp [take?] at h
  | .array es, _, h => by
    obtain ⟨es', hes, rfl⟩ | ⟨x, rfl, -, rfl⟩ := take?_array h
    · simp only [written, headed_append, writtenList_takeLast? hes]
    · simp only [written, headed_append, writtenList_concat, Item.written]
  | .dict ps, _, h => by
    obtain ⟨ps', hps, rfl⟩ | ⟨k, v, rfl, -, rfl⟩ := take?_dict h
    · simp only [written, headed_append, writtenEntries_takeInLast? hps]
    · simp only [written, headed_append, writtenEntries_concat, Item.written]
  | .unary _ arg, _, h | .bump _ _ arg, _, h | .binary _ _ arg, _, h | .ternary _ _ arg, _, h => by
    simp only [take?, Option.map_eq_some_iff] at h
    obtain ⟨arg', harg, rfl⟩ := h
    simp only [written, headed_append, written_take? harg, List.append_assoc, List.cons_append]
  | .builtin _ args, _, h | .call _ args, _, h => by
    obtain ⟨args', hargs, rfl⟩ | ⟨x, rfl, -, rfl⟩ := take?_arguments h
    · simp only [written, headed_append, writtenList_takeLast? hargs, List.append_assoc]
    · simp only [written, headed_append, writtenList_concat, Item.written, List.append_assoc]

theorem writtenList_takeLast? {i : Item} {label : String} : ∀ {es es' : List Expr},
    takeLast? i es = some es' → writtenList g label es' = writtenList g label es ++ i.written g
  | [], _, h => by simp [takeLast?] at h
  | [e], _, h => by
    simp only [takeLast?, Option.map_eq_some_iff] at h
    obtain ⟨e', he, rfl⟩ := h
    simp only [writtenList, written_take? he, List.append_assoc, List.append_nil]
  | a :: b :: rest, _, h => by
    obtain ⟨rest', hrest, rfl⟩ := takeLast?_cons_cons h
    rw [writtenList, writtenList_takeLast? hrest, ← List.append_assoc, ← writtenList]

theorem writtenEntries_takeInLast? {i : Item} : ∀ {ps ps' : List (Expr × Expr)},
    takeInLast? i ps = some ps' → writtenEntries g ps' = writtenEntries g ps ++ i.written g
  | [], _, h => by simp [takeInLast?] at h
  | [(k, v)], _, h => by
    simp only [takeInLast?, Option.map_eq_some_iff] at h
    obtain ⟨v', hv, rfl⟩ := h
    simp only [writtenEntries, written_take? hv, List.append_assoc, List.append_nil]
  | (k, v) :: b :: rest, _, h => by
    obtain ⟨rest', hrest, rfl⟩ := takeInLast?_cons_cons h
    rw [writtenEntries, writtenEntries_takeInLast? hrest, ← List.append_assoc, ← writtenEntries]

end

/-- Items of one kind are all taken by an expression with an open list of the kind. -/
theorem written_foldl_extend {l : Listing} :
    ∀ {is : List Item} {e : Expr}, e.Takes l → (∀ i ∈ is, i.listing = l) →
      (is.foldl extend e).written g = e.written g ++ is.flatMap (Item.written g)
  | [], _, _, _ => by simp
  | i :: is, e, he, hl => by
    obtain rfl := hl i (by simp)
    cases h : take? i e with
    | none => exact absurd he ((take?_eq_none i e).1 h)
    | some e' =>
      have hext : e.extend i = e' := by simp [extend, h]
      have ih := written_foldl_extend (takes_of_take? h) fun j (hj : j ∈ is) => hl j (by simp [hj])
      rw [List.foldl_cons, hext, ih, written_take? h, List.flatMap_cons, List.append_assoc]

theorem flatMap_element (es : List Expr) :
    (es.map Item.element).flatMap (Item.written g) = writtenList g ":elem:" es := by
  induction es with
  | nil => simp [writtenList]
  | cons e es ih => simp [writtenList, Item.written, ← ih]

theorem flatMap_argument (es : List Expr) :
    (es.map Item.argument).flatMap (Item.written g) = writtenList g ":arg:" es := by
  induction es with
  | nil => simp [writtenList]
  | cons e es ih => simp [writtenList, Item.written, ← ih]

theorem flatMap_entry (ps : List (Expr × Expr)) :
    (ps.map fun p => Item.entry p.1 p.2).flatMap (Item.written g) = writtenEntries g ps := by
  induction ps with
  | nil => simp [writtenEntries]
  | cons p ps ih =>
    obtain ⟨k, v⟩ := p
    simp [writtenEntries, Item.written, ← ih]

mutual

/-- Gathering does not change what is written. -/
theorem written_gather : ∀ e : Expr, e.gather.written g = e.written g
  | .const _ | .var _ => rfl
  | .array es => by
    have hopen : Takes .elements (.array []) := Or.inl rfl
    rw [gather, written_foldl_extend hopen (by simp [Item.listing]), flatMap_element,
      writtenList_gatherAll es]
    simp only [written, headed_append, writtenList, List.nil_append]
  | .dict ps => by
    have hopen : Takes .entries (.dict []) := Or.inl rfl
    have hitems :
        ∀ i ∈ (gatherEntries ps).map fun p => Item.entry p.1 p.2, i.listing = .entries := by
      intro i hi
      obtain ⟨p, -, rfl⟩ := List.mem_map.1 hi
      rfl
    rw [gather, written_foldl_extend hopen hitems, flatMap_entry, writtenEntries_gatherEntries ps]
    simp only [written, headed_append, writtenEntries, List.nil_append]
  | .unary _ arg | .bump _ _ arg => by simp only [gather, written, written_gather arg]
  | .binary _ left right => by
    simp only [gather, written, written_gather left, written_gather right]
  | .ternary cond yes no => by
    simp only [gather, written, written_gather cond, written_gather yes, written_gather no]
  | .builtin fn args => by
    have hopen : Takes .arguments (.builtin fn []) := Or.inl rfl
    rw [gather, written_foldl_extend hopen (by simp [Item.listing]), flatMap_argument,
      writtenList_gatherAll args]
    simp only [written, headed_append, writtenList, List.nil_append]
  | .call name args => by
    have hopen : Takes .arguments (.call name []) := Or.inl rfl
    rw [gather, written_foldl_extend hopen (by simp [Item.listing]), flatMap_argument,
      writtenList_gatherAll args]
    simp only [written, headed_append, writtenList, List.append_nil]

theorem writtenList_gatherAll {label : String} :
    ∀ es : List Expr, writtenList g label (gatherAll es) = writtenList g label es
  | [] => rfl
  | e :: rest => by
    simp only [gatherAll, writtenList, written_gather e, writtenList_gatherAll rest]

theorem writtenEntries_gatherEntries :
    ∀ ps : List (Expr × Expr), writtenEntries g (gatherEntries ps) = writtenEntries g ps
  | [] => rfl
  | (k, v) :: rest => by
    simp only [gatherEntries, writtenEntries, written_gather k, written_gather v,
      writtenEntries_gatherEntries rest]

end

/-! ### Leaves -/

variable {p : Literal → Prop} {q : String → Prop}

/-- Every leaf of the item satisfies its predicate. -/
def Item.Every (p : Literal → Prop) (q : String → Prop) : Item → Prop
  | element e => e.Every p q
  | entry k v => k.Every p q ∧ v.Every p q
  | argument e => e.Every p q

theorem everyIn_concat {e : Expr} (he : e.Every p q) :
    ∀ {es : List Expr}, EveryIn p q es → EveryIn p q (es ++ [e])
  | [], _ => ⟨he, trivial⟩
  | _ :: _, h => ⟨h.1, everyIn_concat he h.2⟩

theorem everyInEntries_concat {k v : Expr} (hk : k.Every p q) (hv : v.Every p q) :
    ∀ {ps : List (Expr × Expr)}, EveryInEntries p q ps → EveryInEntries p q (ps ++ [(k, v)])
  | [], _ => ⟨hk, hv, trivial⟩
  | (_, _) :: _, h => ⟨h.1, h.2.1, everyInEntries_concat hk hv h.2.2⟩

mutual

theorem every_take? {i : Item} (hi : i.Every p q) :
    ∀ {e e' : Expr}, e.Every p q → take? i e = some e' → e'.Every p q
  | .const _, _, _, h | .var _, _, _, h => by simp [take?] at h
  | .array es, _, he, h => by
    obtain ⟨es', hes, rfl⟩ | ⟨x, rfl, -, rfl⟩ := take?_array h
    · exact everyIn_takeLast? hi he hes
    · exact everyIn_concat hi he
  | .dict ps, _, he, h => by
    obtain ⟨ps', hps, rfl⟩ | ⟨k, v, rfl, -, rfl⟩ := take?_dict h
    · exact everyInEntries_takeInLast? hi he hps
    · exact everyInEntries_concat hi.1 hi.2 he
  | .unary _ arg, _, he, h | .bump _ _ arg, _, he, h => by
    simp only [take?, Option.map_eq_some_iff] at h
    obtain ⟨arg', harg, rfl⟩ := h
    have ih := every_take? hi (e := arg) he harg
    exact ih
  | .binary _ left right, _, he, h => by
    simp only [take?, Option.map_eq_some_iff] at h
    obtain ⟨right', hright, rfl⟩ := h
    exact ⟨he.1, every_take? hi he.2 hright⟩
  | .ternary cond yes no, _, he, h => by
    simp only [take?, Option.map_eq_some_iff] at h
    obtain ⟨no', hno, rfl⟩ := h
    exact ⟨he.1, he.2.1, every_take? hi he.2.2 hno⟩
  | .builtin _ args, _, he, h => by
    obtain ⟨args', hargs, rfl⟩ | ⟨x, rfl, -, rfl⟩ := take?_arguments h
    · exact everyIn_takeLast? hi (show EveryIn p q args from he) hargs
    · exact everyIn_concat hi (show EveryIn p q args from he)
  | .call _ args, _, he, h => by
    obtain ⟨args', hargs, rfl⟩ | ⟨x, rfl, -, rfl⟩ := take?_arguments h
    · exact ⟨he.1, everyIn_takeLast? hi he.2 hargs⟩
    · exact ⟨he.1, everyIn_concat hi he.2⟩

theorem everyIn_takeLast? {i : Item} (hi : i.Every p q) :
    ∀ {es es' : List Expr}, EveryIn p q es → takeLast? i es = some es' → EveryIn p q es'
  | [], _, _, h => by simp [takeLast?] at h
  | [e], _, he, h => by
    simp only [takeLast?, Option.map_eq_some_iff] at h
    obtain ⟨e', he', rfl⟩ := h
    exact ⟨every_take? hi he.1 he', trivial⟩
  | a :: b :: rest, _, he, h => by
    obtain ⟨rest', hrest, rfl⟩ := takeLast?_cons_cons h
    exact ⟨he.1, everyIn_takeLast? hi he.2 hrest⟩

theorem everyInEntries_takeInLast? {i : Item} (hi : i.Every p q) :
    ∀ {ps ps' : List (Expr × Expr)}, EveryInEntries p q ps → takeInLast? i ps = some ps' →
      EveryInEntries p q ps'
  | [], _, _, h => by simp [takeInLast?] at h
  | [(k, v)], _, he, h => by
    simp only [takeInLast?, Option.map_eq_some_iff] at h
    obtain ⟨v', hv, rfl⟩ := h
    exact ⟨he.1, every_take? hi he.2.1 hv, trivial⟩
  | (k, v) :: b :: rest, _, he, h => by
    obtain ⟨rest', hrest, rfl⟩ := takeInLast?_cons_cons h
    exact ⟨he.1, he.2.1, everyInEntries_takeInLast? hi he.2.2 hrest⟩

end

theorem every_foldl_extend :
    ∀ {is : List Item} {e : Expr}, e.Every p q → (∀ i ∈ is, i.Every p q) →
      (is.foldl extend e).Every p q
  | [], _, he, _ => he
  | i :: is, e, he, h => by
    have hext : (e.extend i).Every p q := by
      unfold extend
      cases ht : take? i e with
      | none => exact he
      | some e' => exact every_take? (h i (by simp)) he ht
    have ih := every_foldl_extend hext fun j (hj : j ∈ is) => h j (by simp [hj])
    exact ih

mutual

/-- Gathering keeps the leaves. -/
theorem every_gather : ∀ {e : Expr}, e.Every p q → e.gather.Every p q
  | .const _, h | .var _, h => h
  | .array es, h => by
    refine every_foldl_extend (e := .array []) trivial fun i hi => ?_
    obtain ⟨x, hx, rfl⟩ := List.mem_map.1 hi
    exact every_of_mem_gatherAll h x hx
  | .dict ps, h => by
    refine every_foldl_extend (e := .dict []) trivial fun i hi => ?_
    obtain ⟨x, hx, rfl⟩ := List.mem_map.1 hi
    exact every_of_mem_gatherEntries h x hx
  | .unary _ arg, h | .bump _ _ arg, h => every_gather (e := arg) h
  | .binary _ left right, h => ⟨every_gather h.1, every_gather h.2⟩
  | .ternary cond yes no, h => ⟨every_gather h.1, every_gather h.2.1, every_gather h.2.2⟩
  | .builtin fn args, h => by
    refine every_foldl_extend (e := .builtin fn []) trivial fun i hi => ?_
    obtain ⟨x, hx, rfl⟩ := List.mem_map.1 hi
    exact every_of_mem_gatherAll (show EveryIn p q args from h) x hx
  | .call name args, h => by
    refine every_foldl_extend (e := .call name []) ⟨h.1, trivial⟩ fun i hi => ?_
    obtain ⟨x, hx, rfl⟩ := List.mem_map.1 hi
    exact every_of_mem_gatherAll h.2 x hx

theorem every_of_mem_gatherAll :
    ∀ {es : List Expr}, EveryIn p q es → ∀ x ∈ gatherAll es, x.Every p q
  | [], _, x, hx => by simp [gatherAll] at hx
  | e :: rest, h, x, hx => by
    rcases List.mem_cons.1 hx with rfl | hx
    · exact every_gather h.1
    · exact every_of_mem_gatherAll h.2 x hx

theorem every_of_mem_gatherEntries : ∀ {ps : List (Expr × Expr)}, EveryInEntries p q ps →
    ∀ x ∈ gatherEntries ps, x.1.Every p q ∧ x.2.Every p q
  | [], _, x, hx => by simp [gatherEntries] at hx
  | (k, v) :: rest, h, x, hx => by
    rcases List.mem_cons.1 hx with rfl | hx
    · exact ⟨every_gather h.1, every_gather h.2.1⟩
    · exact every_of_mem_gatherEntries h.2.2 x hx

end

end Expr

/-- A machine on which nothing has run. -/
def Machine.idle : Machine where
  memory := .empty
  frame := .top "m" ⟨0⟩
  run := .inDir "/"
  session := .inDir "/" false
  files := ⟨.dir [] 0, 0, none⟩
  host := ⟨.empty, "", "", .none, Text.Regex.anchored⟩

namespace Stmt

variable {g : Glossary}

/-! ## Statements -/

/-- The characters of an item. -/
def Item.written (g : Glossary) : Item → List Char
  | next s => s.written g
  | otherwise s => mark "else:" ++ s.written g

theorem writtenList_concat (s : Stmt) (ss : List Stmt) :
    writtenList g (ss ++ [s]) = writtenList g ss ++ s.written g := by
  induction ss with
  | nil => simp [writtenList]
  | cons a rest ih => simp [writtenList, ih]

mutual

/-- What takes an item is written as before, with the item behind it. -/
theorem written_take? {i : Item} : ∀ {s s' : Stmt}, take? i s = some s' →
    s'.written g = s.written g ++ i.written g
  | .block _ ss, _, h => by
    obtain ⟨ss', hss, rfl⟩ | ⟨x, rfl, -, rfl⟩ := take?_block h
    · simp only [written, headed_append, writtenList_takeLast? hss]
    · simp only [written, headed_append, writtenList_concat, Item.written]
  | .branch _ cond yes none, _, h => by
    obtain ⟨yes', hyes, rfl⟩ | ⟨x, rfl, -, rfl⟩ := take?_branch h
    · simp only [written, headed_append, written_take? hyes, List.append_assoc]
    · simp only [written, headed_append, Item.written, List.append_assoc]
  | .branch _ cond yes (some no), _, h => by
    simp only [take?, Option.map_eq_some_iff] at h
    obtain ⟨no', hno, rfl⟩ := h
    simp only [written, headed_append, written_take? hno, List.append_assoc]
  | .loop _ _ _ _ body, _, h | .depends _ _ body, _, h => by
    simp only [take?, Option.map_eq_some_iff] at h
    obtain ⟨body', hbody, rfl⟩ := h
    simp only [written, headed_append, written_take? hbody, List.append_assoc]
  | .expr .., _, h | .foreach .., _, h | .breakStmt _, _, h | .continueStmt _, _, h
  | .returnStmt .., _, h | .includeStmt .., _, h | .usingStmt .., _, h => by simp [take?] at h

theorem writtenList_takeLast? {i : Item} : ∀ {ss ss' : List Stmt},
    takeLast? i ss = some ss' → writtenList g ss' = writtenList g ss ++ i.written g
  | [], _, h => by simp [takeLast?] at h
  | [s], _, h => by
    simp only [takeLast?, Option.map_eq_some_iff] at h
    obtain ⟨s', hs, rfl⟩ := h
    simp only [writtenList, written_take? hs, List.append_nil]
  | a :: b :: rest, _, h => by
    obtain ⟨rest', hrest, rfl⟩ := takeLast?_cons_cons h
    rw [writtenList, writtenList_takeLast? hrest, ← List.append_assoc, ← writtenList]

end

/-- Statements are all taken by a statement with an open block. -/
theorem written_foldl_extend : ∀ {ss : List Stmt} {s : Stmt}, s.Takes .statements →
    ((ss.map Item.next).foldl extend s).written g = s.written g ++ writtenList g ss
  | [], _, _ => by simp [writtenList]
  | a :: rest, s, hs => by
    cases h : take? (.next a) s with
    | none => exact absurd hs ((take?_eq_none _ s).1 h)
    | some s' =>
      have hext : s.extend (.next a) = s' := by simp [extend, h]
      rw [List.map_cons, List.foldl_cons, hext, written_foldl_extend (takes_of_take?_next h),
        written_take? h, writtenList, Item.written, List.append_assoc]

/-- An `if` without a second branch takes one. -/
theorem written_extend_otherwise (loc : Location) (cond : Expr) (yes no : Stmt) :
    ((branch loc cond yes none).extend (.otherwise no)).written g =
      (branch loc cond yes none).written g ++ (mark "else:" ++ no.written g) := by
  cases h : take? (.otherwise no) (branch loc cond yes none) with
  | none =>
    have hopen : (branch loc cond yes none).Takes .branches := Or.inl rfl
    exact absurd hopen ((take?_eq_none _ _).1 h)
  | some s' =>
    have hext : (branch loc cond yes none).extend (.otherwise no) = s' := by simp [extend, h]
    rw [hext, written_take? h, Item.written]

theorem writtenClause_map_gather (label : String) (clause : Option Expr) :
    Expr.writtenClause g label (clause.map Expr.gather) = Expr.writtenClause g label clause := by
  cases clause with
  | none => rfl
  | some e => simp only [Option.map_some, Expr.writtenClause, Expr.written_gather]

mutual

/-- Gathering does not change what is written. -/
theorem written_gather : ∀ s : Stmt, s.gather.written g = s.written g
  | .expr _ e => by simp only [gather, written, Expr.written_gather]
  | .block loc ss => by
    have hopen : Takes .statements (.block loc []) := Or.inl rfl
    rw [gather, written_foldl_extend hopen, writtenList_gatherAll ss]
    simp only [written, headed_append, writtenList, List.nil_append]
  | .branch _ cond yes none => by
    simp only [gather, written, Expr.written_gather, written_gather yes]
  | .branch loc cond yes (some no) => by
    rw [gather, written_extend_otherwise]
    simp only [written, headed_append, Expr.written_gather, written_gather yes, written_gather no,
      List.append_assoc]
  | .loop _ init cond next body => by
    simp only [gather, written, writtenClause_map_gather, written_gather body]
  | .foreach _ _ items body | .depends _ items body => by
    simp only [gather, written, Expr.written_gather, written_gather body]
  | .breakStmt _ | .continueStmt _ => rfl
  | .returnStmt _ value => by simp only [gather, written, writtenClause_map_gather]
  | .includeStmt _ path | .usingStmt _ path => by simp only [gather, written, Expr.written_gather]

theorem writtenList_gatherAll : ∀ ss : List Stmt, writtenList g (gatherAll ss) = writtenList g ss
  | [] => rfl
  | s :: rest => by
    simp only [gatherAll, writtenList, written_gather s, writtenList_gatherAll rest]

end

/-! ### Leaves -/

variable {p : Literal → Prop} {q : String → Prop}

/-- Every leaf of the item satisfies its predicate. -/
def Item.Every (p : Literal → Prop) (q : String → Prop) : Item → Prop
  | next s => s.Every p q
  | otherwise s => s.Every p q

theorem everyIn_concat {s : Stmt} (hs : s.Every p q) :
    ∀ {ss : List Stmt}, EveryIn p q ss → EveryIn p q (ss ++ [s])
  | [], _ => ⟨hs, trivial⟩
  | _ :: _, h => ⟨h.1, everyIn_concat hs h.2⟩

mutual

theorem every_take? {i : Item} (hi : i.Every p q) :
    ∀ {s s' : Stmt}, s.Every p q → take? i s = some s' → s'.Every p q
  | .block _ ss, _, hs, h => by
    obtain ⟨ss', hss, rfl⟩ | ⟨x, rfl, -, rfl⟩ := take?_block h
    · exact everyIn_takeLast? hi hs hss
    · exact everyIn_concat hi hs
  | .branch _ cond yes none, _, hs, h => by
    obtain ⟨yes', hyes, rfl⟩ | ⟨x, rfl, -, rfl⟩ := take?_branch h
    · exact ⟨hs.1, every_take? hi hs.2 hyes⟩
    · exact ⟨hs.1, hs.2, hi⟩
  | .branch _ cond yes (some no), _, hs, h => by
    simp only [take?, Option.map_eq_some_iff] at h
    obtain ⟨no', hno, rfl⟩ := h
    exact ⟨hs.1, hs.2.1, every_take? hi hs.2.2 hno⟩
  | .loop _ init cond next body, _, hs, h => by
    simp only [take?, Option.map_eq_some_iff] at h
    obtain ⟨body', hbody, rfl⟩ := h
    obtain ⟨hinit, hcond, hnext, hbody'⟩ := hs
    exact ⟨hinit, hcond, hnext, every_take? hi hbody' hbody⟩
  | .depends _ paths action, _, hs, h => by
    simp only [take?, Option.map_eq_some_iff] at h
    obtain ⟨action', haction, rfl⟩ := h
    exact ⟨hs.1, every_take? hi hs.2 haction⟩
  | .expr .., _, _, h | .foreach .., _, _, h | .breakStmt _, _, _, h | .continueStmt _, _, _, h
  | .returnStmt .., _, _, h | .includeStmt .., _, _, h | .usingStmt .., _, _, h => by
    simp [take?] at h

theorem everyIn_takeLast? {i : Item} (hi : i.Every p q) :
    ∀ {ss ss' : List Stmt}, EveryIn p q ss → takeLast? i ss = some ss' → EveryIn p q ss'
  | [], _, _, h => by simp [takeLast?] at h
  | [s], _, hs, h => by
    simp only [takeLast?, Option.map_eq_some_iff] at h
    obtain ⟨s', hs', rfl⟩ := h
    exact ⟨every_take? hi hs.1 hs', trivial⟩
  | a :: b :: rest, _, hs, h => by
    obtain ⟨rest', hrest, rfl⟩ := takeLast?_cons_cons h
    exact ⟨hs.1, everyIn_takeLast? hi hs.2 hrest⟩

end

theorem every_extend {s : Stmt} {i : Item} (hs : s.Every p q) (hi : i.Every p q) :
    (s.extend i).Every p q := by
  unfold extend
  cases ht : take? i s with
  | none => exact hs
  | some s' => exact every_take? hi hs ht

theorem every_foldl_extend :
    ∀ {is : List Item} {s : Stmt}, s.Every p q → (∀ i ∈ is, i.Every p q) →
      (is.foldl extend s).Every p q
  | [], _, hs, _ => hs
  | i :: is, s, hs, h => by
    have hext : (s.extend i).Every p q := every_extend hs (h i (by simp))
    have ih := every_foldl_extend hext fun j (hj : j ∈ is) => h j (by simp [hj])
    exact ih

theorem every_of_mem_map_gather {clause : Option Expr} (h : ∀ e ∈ clause, e.Every p q) :
    ∀ e ∈ clause.map Expr.gather, e.Every p q := by
  intro e he
  obtain ⟨x, hx, rfl⟩ := Option.map_eq_some_iff.1 he
  exact Expr.every_gather (h x hx)

mutual

/-- Gathering keeps the leaves. -/
theorem every_gather : ∀ {s : Stmt}, s.Every p q → s.gather.Every p q
  | .expr _ e, h => Expr.every_gather (e := e) h
  | .block loc ss, h => by
    refine every_foldl_extend (s := .block loc []) trivial fun i hi => ?_
    obtain ⟨x, hx, rfl⟩ := List.mem_map.1 hi
    exact every_of_mem_gatherAll h x hx
  | .branch _ cond yes none, h => ⟨Expr.every_gather h.1, every_gather h.2⟩
  | .branch loc cond yes (some no), h => by
    have hyes : (branch loc cond.gather yes.gather none).Every p q :=
      ⟨Expr.every_gather h.1, every_gather h.2.1⟩
    exact every_extend hyes (i := .otherwise no.gather) (every_gather h.2.2)
  | .loop _ init cond next body, h =>
    ⟨every_of_mem_map_gather h.1, every_of_mem_map_gather h.2.1, every_of_mem_map_gather h.2.2.1,
      every_gather h.2.2.2⟩
  | .foreach _ name items body, h => ⟨h.1, Expr.every_gather h.2.1, every_gather h.2.2⟩
  | .breakStmt _, _ => trivial
  | .continueStmt _, _ => trivial
  | .returnStmt _ value, h => every_of_mem_map_gather h
  | .depends _ paths action, h => ⟨Expr.every_gather h.1, every_gather h.2⟩
  | .includeStmt _ path, h | .usingStmt _ path, h => Expr.every_gather (e := path) h

theorem every_of_mem_gatherAll :
    ∀ {ss : List Stmt}, EveryIn p q ss → ∀ x ∈ gatherAll ss, x.Every p q
  | [], _, x, hx => by simp [gatherAll] at hx
  | s :: rest, h, x, hx => by
    rcases List.mem_cons.1 hx with rfl | hx
    · exact every_gather h.1
    · exact every_of_mem_gatherAll h.2 x hx

end

/-! ## Statements with one fingerprint -/

/-- Reading can yield the statement, at some place of some text. -/
def Readable (s : Stmt) : Prop :=
  ∃ n stream, stream.pushed = [] ∧ (Parser.statementWithin n stream).1 = .ok s

/-- All constants of the statement are integers. -/
def IntegerConstants (s : Stmt) : Prop := s.Every Expr.IsInt fun _ => True

theorem Readable.named {s : Stmt} (h : Readable s) : Parser.NamedStmt s := by
  obtain ⟨n, stream, hpushed, hread⟩ := h
  have hlexed : stream.Lexed := by simp [Stream.Lexed, hpushed]
  rcases hres : Parser.statementWithin n stream with ⟨o, stream'⟩
  rw [hres] at hread
  subst hread
  exact Parser.named_of_statementWithin hlexed hres

theorem Gathered.legible {s : Stmt} (hs : s.Gathered) (hp : s.Every Expr.IsInt Identifier) :
    s.Legible [] := by
  refine ⟨hs, hp, .nothing, fun l _ hpre => ?_⟩
  have hnil := List.prefix_nil.1 hpre
  revert hnil
  cases l <;> simp [mark, itemMark]

/-- Gathered statements are told apart by what is written of them. -/
theorem Gathered.unlocated_eq {s₁ s₂ : Stmt} (g₁ : s₁.Gathered) (g₂ : s₂.Gathered)
    (p₁ : s₁.Every Expr.IsInt Identifier) (p₂ : s₂.Every Expr.IsInt Identifier)
    (h : s₁.written g = s₂.written g) : s₁.unlocated = s₂.unlocated :=
  (written_append_inj (g₁.legible p₁) (g₂.legible p₂) (congrArg (· ++ []) h)).1

/-- Two statements are written alike exactly if they are the same once gathered. -/
theorem written_eq_iff {s₁ s₂ : Stmt} (p₁ : s₁.Every Expr.IsInt Identifier)
    (p₂ : s₂.Every Expr.IsInt Identifier) :
    s₁.written g = s₂.written g ↔ s₁.gather.unlocated = s₂.gather.unlocated := by
  constructor
  · intro h
    refine (gathered_gather s₁).unlocated_eq (gathered_gather s₂) (every_gather p₁)
      (every_gather p₂) (g := g) ?_
    rw [written_gather, written_gather, h]
  · intro h
    rw [← written_gather s₁, ← written_gather s₂, ← written_unlocated, h, written_unlocated]

/-- Two statements with integer constants share their fingerprint exactly if they are the same, up
to locations, once every trailing item is moved into the list that is open before it.  Where no item
has to be moved, different statements have different fingerprints. -/
theorem fingerprint_eq_iff_gather_eq (m : Machine) {s₁ s₂ : Stmt} {t₁ t₂ : String}
    (r₁ : s₁.Readable) (r₂ : s₂.Readable) (i₁ : s₁.IntegerConstants) (i₂ : s₂.IntegerConstants)
    (h₁ : Fingerprint.stmt (Action.viewOf m) s₁ = .ok t₁)
    (h₂ : Fingerprint.stmt (Action.viewOf m) s₂ = .ok t₂) :
    (t₁ = t₂ ↔ s₁.gather.unlocated = s₂.gather.unlocated) ∧
      (s₁.Gathered → s₂.Gathered → (t₁ = t₂ ↔ s₁.unlocated = s₂.unlocated)) := by
  have p₁ := every_of i₁ r₁.named
  have p₂ := every_of i₂ r₂.named
  let view := Action.viewOf m
  have ht : t₁ = t₂ ↔
      s₁.written (glossary view (function view)) = s₂.written (glossary view (function view)) := by
    rw [← stmt_eq_ok h₁, ← stmt_eq_ok h₂, String.toList_inj]
  refine ⟨ht.trans (written_eq_iff p₁ p₂), fun g₁ g₂ => ?_⟩
  rw [ht]
  refine ⟨g₁.unlocated_eq g₂ p₁ p₂, fun h => ?_⟩
  rw [← written_unlocated, h, written_unlocated]

/-! ### An `else` that changes its `if` unseen -/

/-- `if (a) { if (b) x; } else y;` -/
def outerElse : Stmt :=
  .branch ⟨"m", 1⟩ (.var "a")
    (.block ⟨"m", 1⟩ [.branch ⟨"m", 1⟩ (.var "b") (.expr ⟨"m", 1⟩ (.var "x")) none])
    (some (.expr ⟨"m", 1⟩ (.var "y")))

/-- `if (a) { if (b) x; else y; }` -/
def innerElse : Stmt :=
  .branch ⟨"m", 1⟩ (.var "a")
    (.block ⟨"m", 1⟩
      [.branch ⟨"m", 1⟩ (.var "b") (.expr ⟨"m", 1⟩ (.var "x")) (some (.expr ⟨"m", 1⟩ (.var "y")))])
    none

/-- What is written of both. -/
def elseText : String :=
  "class:if:args:expr:class:var:args::name:a:value:class:void:args:then:class:compound:args:" ++
    "class:if:args:expr:class:var:args::name:b:value:class:void:args:" ++
    "then:class:expr-stmt:args:class:var:args::name:x:value:class:void:args:" ++
    "else:class:expr-stmt:args:class:var:args::name:y:value:class:void:args:"

/-- Nothing is bound on the idle machine. -/
theorem reference_idle (name : String) : Fingerprint.reference (Action.viewOf .idle) name =
    .ok ("class:var:args::name:" ++ name ++ ":value:class:void:args:") := by
  have hvoid : (Action.viewOf .idle).value name = some .void := rfl
  simp [Fingerprint.reference, hvoid, Tree.encode, Digest.header, String.append_assoc]

theorem fingerprint_outerElse :
    Fingerprint.stmt (Action.viewOf .idle) outerElse = .ok elseText := by
  simp only [outerElse, Fingerprint.stmt, stmtWith, stmtsWith, exprWith, reference_idle]
  decide +kernel

theorem fingerprint_innerElse :
    Fingerprint.stmt (Action.viewOf .idle) innerElse = .ok elseText := by
  simp only [innerElse, Fingerprint.stmt, stmtWith, stmtsWith, exprWith, reference_idle]
  decide +kernel

theorem readable_outerElse : Readable outerElse :=
  ⟨300, .ofText "if (a) { if (b) x; } else y;" "m", rfl, by cbv⟩

theorem readable_innerElse : Readable innerElse :=
  ⟨300, .ofText "if (a) { if (b) x; else y; }" "m", rfl, by cbv⟩

/-- Moving the `else` to the other `if` leaves the fingerprint as it is. -/
theorem outerElse_fingerprint_innerElse :
    Fingerprint.stmt (Action.viewOf .idle) outerElse = .ok elseText ∧
      Fingerprint.stmt (Action.viewOf .idle) innerElse = .ok elseText ∧
      outerElse.gather.unlocated = innerElse.gather.unlocated ∧
      outerElse.unlocated ≠ innerElse.unlocated := by
  have i₁ : outerElse.IntegerConstants := ⟨trivial, ⟨⟨trivial, trivial⟩, trivial⟩, trivial⟩
  have i₂ : innerElse.IntegerConstants := ⟨trivial, ⟨trivial, trivial, trivial⟩, trivial⟩
  have h := fingerprint_eq_iff_gather_eq .idle readable_outerElse readable_innerElse i₁ i₂
    fingerprint_outerElse fingerprint_innerElse
  refine ⟨fingerprint_outerElse, fingerprint_innerElse, h.1.1 rfl, fun heq => ?_⟩
  simp [outerElse, innerElse, unlocated] at heq

end Stmt

end Kiln
