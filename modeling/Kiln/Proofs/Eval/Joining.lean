import Kiln.Proofs.Eval.Equality
import Kiln.Proofs.Memory.Shape
import Kiln.Proofs.Text.Joining

/-!
# Kiln.Proofs.Eval.Joining — `explode` undoes `implode`

`implode` puts one text between the elements of an array, and `explode` cuts at every one of a set of
characters and drops what is empty.  Where the text is made of these characters and no element has any
of them, the elements come back (`explode_undoes_implode`).
-/

namespace Kiln

open Kiln.Text Kiln.Action

variable {s : Machine} {v : Value} {texts : List String} {form : String}

namespace Builtin

/-- An argument that may be left out. -/
def optional (text : Option String) : List Value := (text.map Value.str).toList

theorem implode_run {arr : ArrayId} (glue : Option String)
    (htexts : s.Forms (s.memory.elements (.array arr)) texts) :
    call .implode (.array arr :: optional glue) s =
      (.ok (.str (Pieces.join (glue.getD " ") texts)), s) := by
  have hjoin (glue : String) : (elementsOf (.array arr) >>= fun values => textsOf values >>= fun texts =>
      pure (Value.str (Pieces.join glue texts)) : Action Value) s =
        (.ok (.str (Pieces.join glue texts)), s) := by
    have helements : elementsOf (.array arr) s = (.ok (s.memory.elements (.array arr)), s) := rfl
    rw [Step.bind_run_ok helements, Step.bind_run_ok (textsOf_of_forms htexts)]
    rfl
  cases glue with
  | none => exact hjoin " "
  | some glue => exact hjoin glue

theorem explode_run (seps : Option String)
    (hv : Memory.textOf v s.memory = (.ok form, s.memory)) : ∃ m,
    call .explode (v :: optional seps) s =
      (.ok (.array ⟨s.memory.arrays.size⟩), { s with memory := m }) ∧
    m.elements (.array ⟨s.memory.arrays.size⟩) =
      (Pieces.words (fun c => (seps.getD blanks).toList.contains c) form).map .str := by
  obtain ⟨m, hnew, helements⟩ := newArray_run
    ((Pieces.words (fun c => (seps.getD blanks).toList.contains c) form).map .str) s
  have htext : textOf v s = (.ok form, s) := onMemory_run hv
  have hcut (seps : String) : (textOf v >>= fun text => onMemory
      (Memory.newArray ((Pieces.words (fun c => seps.toList.contains c) text).map .str)) :
        Action Value) s = onMemory (Memory.newArray
          ((Pieces.words (fun c => seps.toList.contains c) form).map .str)) s :=
    Step.bind_run_ok htext _
  refine ⟨m, Eq.trans ?_ hnew, helements⟩
  cases seps with
  | none => exact hcut blanks
  | some seps => exact hcut seps

/-- The elements of an array come back after `implode` and `explode`, if none is empty or has a
separator in it and what was put between them is made of separators.  And of any text `explode` gives
the pieces without separators, none of them empty, that make up the text but for its separators. -/
theorem explode_undoes_implode (s : Machine) :
    (∀ (arr : ArrayId) (texts : List String) (glue seps : Option String),
      s.memory.elements (.array arr) = texts.map .str → (∀ text ∈ texts, text ≠ "") →
      (∀ text ∈ texts, ∀ c ∈ text.toList, c ∉ (seps.getD blanks).toList) → glue.getD " " ≠ "" →
      (∀ c ∈ (glue.getD " ").toList, c ∈ (seps.getD blanks).toList) →
      ∃ (joined : String) (id : ArrayId) (m : Memory),
        call .implode (.array arr :: optional glue) s = (.ok (.str joined), s) ∧
        call .explode (.str joined :: optional seps) s = (.ok (.array id), { s with memory := m }) ∧
        m.elements (.array id) = texts.map .str) ∧
    ∀ (text : String) (seps : Option String), ∃ (pieces : List String) (id : ArrayId) (m : Memory),
      call .explode (.str text :: optional seps) s = (.ok (.array id), { s with memory := m }) ∧
      m.elements (.array id) = pieces.map .str ∧
      (∀ piece ∈ pieces, piece ≠ "" ∧ ∀ c ∈ piece.toList, c ∉ (seps.getD blanks).toList) ∧
      Pieces.join "" pieces =
        String.ofList (text.toList.filter fun c => c ∉ (seps.getD blanks).toList) := by
  refine ⟨fun arr texts glue seps helements hfull hplain hne hglue => ?_, fun text seps => ?_⟩
  · have hforms : s.Forms (s.memory.elements (.array arr)) texts := by
      rw [helements]
      exact forms_str texts
    obtain ⟨m, hrun, hwords⟩ := explode_run (s := s) (v := .str (Pieces.join (glue.getD " ") texts))
      seps rfl
    refine ⟨_, _, m, implode_run glue hforms, hrun, ?_⟩
    rw [hwords, Pieces.words_join hfull _ hne]
    · intro c hc
      exact List.contains_iff_mem.mpr (hglue c hc)
    · intro text htext c hc
      have hnot := hplain text htext c hc
      simpa using hnot
  · obtain ⟨m, hrun, hwords⟩ := explode_run (s := s) (v := .str text) seps rfl
    refine ⟨_, _, m, hrun, hwords, fun piece hpiece => ?_, ?_⟩
    · obtain ⟨hne, hplain⟩ := Pieces.of_mem_words hpiece
      refine ⟨hne, fun c hc => ?_⟩
      simpa using hplain c hc
    · rw [Pieces.join_words]
      simp

/-- A state with the array `["a b", "é"]`. -/
def spaced : Machine :=
  { Machine.blank with
    memory := ⟨#[.str "a b", .str "é"], #[#[⟨0⟩, ⟨1⟩]], #[], #[⟨.empty, []⟩]⟩ }

/-- A blank is no separator unless it is among those asked for. -/
theorem explode_undoes_implode_spaced : let s := spaced
    s.memory.elements (.array ⟨0⟩) = [.str "a b", .str "é"] ∧
    (∀ text ∈ ["a b", "é"], text ≠ "" ∧ ∀ c ∈ text.toList, c ∉ ";,".toList) ∧
    (∀ c ∈ ",,;".toList, c ∈ ";,".toList) ∧ ∃ (joined : String) (id : ArrayId) (m : Memory),
      call .implode [.array ⟨0⟩, .str ",,;"] s = (.ok (.str joined), s) ∧
      call .explode [.str joined, .str ";,"] s = (.ok (.array id), { s with memory := m }) ∧
      m.elements (.array id) = [.str "a b", .str "é"] := by
  intro s
  have helements : s.memory.elements (.array ⟨0⟩) = [.str "a b", .str "é"] := rfl
  have htexts : ∀ text ∈ ["a b", "é"], text ≠ "" ∧ ∀ c ∈ text.toList, c ∉ ";,".toList := by simp
  have hglue : ∀ c ∈ ",,;".toList, c ∈ ";,".toList := by simp
  have hback := (explode_undoes_implode s).1 ⟨0⟩ ["a b", "é"] (some ",,;") (some ";,") helements
    (fun text h => (htexts text h).1) (fun text h => (htexts text h).2) (by decide) hglue
  exact ⟨helements, htexts, hglue, hback⟩

end Builtin

end Kiln
