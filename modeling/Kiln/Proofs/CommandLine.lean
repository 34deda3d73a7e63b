import Kiln.CommandLine

/-!
# Kiln.Proofs.CommandLine — what the arguments of the command line mean

Read from the left, the arguments fall into parts: a `-f` with the argument behind it, or any other
argument by itself; a last `-f` may be left without a value (`exists_parts`, `line_inj`).  Help wins
over a missing value, and a missing value over all else; then the last file counts, and the other
arguments decide on the command (`read_line`).  So the command depends on these and on nothing else
(`invocation_of_parts`).
-/

namespace Kiln.Invocation

/-- A part of the command line. -/
inductive Part where
  /-- `-f` and the build file it names. -/
  | file (value : String)
  /-- Any other argument. -/
  | word (arg : String) (h : arg ≠ "-f")

/-- The arguments in a part. -/
def Part.args : Part → List String
  | file value => ["-f", value]
  | word arg _ => [arg]

/-- The arguments in some parts, where `dangling` says that another `-f` comes behind them. -/
def line (parts : List Part) (dangling : Bool) : List String :=
  parts.flatMap Part.args ++ if dangling then ["-f"] else []

/-- The build files that are named. -/
def files : List Part → List String
  | [] => []
  | .file value :: parts => value :: files parts
  | .word _ _ :: parts => files parts

/-- The arguments that are neither `-f` nor its value. -/
def words : List Part → List String
  | [] => []
  | .file _ :: parts => words parts
  | .word arg _ :: parts => arg :: words parts

/-- Help is asked for. -/
def AsksHelp (words : List String) : Prop := "-h" ∈ words ∨ "--help" ∈ words ∨ "/?" ∈ words

instance (words : List String) : Decidable (AsksHelp words) :=
  inferInstanceAs (Decidable ("-h" ∈ words ∨ "--help" ∈ words ∨ "/?" ∈ words))

/-- In these arguments every `-f` has its value. -/
def Whole (args : List String) : Prop := ∃ parts, line parts false = args

variable {parts : List Part} {dangling : Bool} {args : List String}

/-! ## Parts -/

theorem line_cons (p : Part) (parts : List Part) (dangling : Bool) :
    line (p :: parts) dangling = p.args ++ line parts dangling := by
  rw [line, List.flatMap_cons, List.append_assoc]
  rfl

theorem line_append (parts more : List Part) (dangling : Bool) :
    line parts false ++ line more dangling = line (parts ++ more) dangling := by
  simp [line]

theorem words_append (parts more : List Part) : words (parts ++ more) = words parts ++ words more := by
  induction parts with
  | nil => rfl
  | cons p parts ih =>
    cases p with
    | file value => exact ih
    | word arg h => exact congrArg (arg :: ·) ih

/-- Arguments of every kind can be read. -/
theorem exists_parts : ∀ args : List String, ∃ parts dangling, line parts dangling = args
  | [] => ⟨[], false, rfl⟩
  | arg :: rest => by
    by_cases h : arg = "-f"
    · subst h
      match rest with
      | [] => exact ⟨[], true, rfl⟩
      | value :: rest =>
        obtain ⟨parts, dangling, rfl⟩ := exists_parts rest
        exact ⟨.file value :: parts, dangling, line_cons ..⟩
    · obtain ⟨parts, dangling, rfl⟩ := exists_parts rest
      exact ⟨.word arg h :: parts, dangling, line_cons ..⟩

theorem line_nil_ne_cons (p : Part) (parts : List Part) (dangling dangling' : Bool) :
    line [] dangling ≠ line (p :: parts) dangling' := by
  intro h
  rw [line_cons] at h
  cases p with
  | file value => cases dangling <;> simp [line, Part.args] at h
  | word arg harg =>
    cases dangling with
    | false => simp [line, Part.args] at h
    | true =>
      simp only [line, Part.args, List.flatMap_nil, List.nil_append, if_true, List.cons_append,
        List.cons.injEq] at h
      exact harg h.1.symm

/-- They can be read in one way only. -/
theorem line_inj {parts' : List Part} {dangling' : Bool}
    (h : line parts dangling = line parts' dangling') : parts = parts' ∧ dangling = dangling' := by
  induction parts generalizing parts' with
  | nil =>
    cases parts' with
    | nil => cases dangling <;> cases dangling' <;> simp_all [line]
    | cons p' parts' => exact absurd h (line_nil_ne_cons p' parts' _ _)
  | cons p parts ih =>
    cases parts' with
    | nil => exact absurd h.symm (line_nil_ne_cons p parts _ _)
    | cons p' parts' =>
      rw [line_cons, line_cons] at h
      cases p with
      | file value =>
        cases p' with
        | file value' =>
          simp only [Part.args, List.cons_append, List.nil_append, List.cons.injEq, true_and] at h
          obtain ⟨rfl, hrest⟩ := h
          obtain ⟨rfl, hdangling⟩ := ih hrest
          exact ⟨rfl, hdangling⟩
        | word arg' h' =>
          simp only [Part.args, List.cons_append, List.cons.injEq] at h
          exact absurd h.1.symm h'
      | word arg harg =>
        cases p' with
        | file value' =>
          simp only [Part.args, List.cons_append, List.cons.injEq] at h
          exact absurd h.1 harg
        | word arg' h' =>
          simp only [Part.args, List.cons_append, List.nil_append, List.cons.injEq] at h
          obtain ⟨rfl, hrest⟩ := h
          obtain ⟨rfl, hdangling⟩ := ih hrest
          exact ⟨rfl, hdangling⟩

/-! ## Reading the parts -/

theorem isHelp_iff {arg : String} : isHelp arg = true ↔ arg = "-h" ∨ arg = "--help" ∨ arg = "/?" := by
  simp [isHelp, or_assoc]

theorem asksHelp_cons {arg : String} {rest : List String} :
    AsksHelp (arg :: rest) ↔ isHelp arg = true ∨ AsksHelp rest := by
  rw [isHelp_iff]
  simp only [AsksHelp, List.mem_cons, eq_comm (b := arg)]
  constructor
  · rintro ((h | h) | (h | h) | (h | h)) <;> simp [h]
  · rintro ((h | h | h) | (h | h | h)) <;> simp [h]

theorem read_word {arg : String} (h : arg ≠ "-f") (file : String) (seen rest : List String) :
    read file seen (arg :: rest) =
      if isHelp arg then .ok ⟨file, .help⟩ else read file (arg :: seen) rest := by
  simp [read, h]

/-- A word that asks for help ends the reading, whatever comes behind it. -/
theorem read_help (h : AsksHelp (words parts)) (file : String) (seen rest : List String) :
    ∃ file', read file seen (parts.flatMap Part.args ++ rest) = .ok ⟨file', .help⟩ := by
  induction parts generalizing file seen with
  | nil => simp [AsksHelp, words] at h
  | cons p parts ih =>
    cases p with
    | file value => exact ih h value seen
    | word arg harg =>
      have hread := read_word harg file seen (parts.flatMap Part.args ++ rest)
      by_cases hhelp : isHelp arg = true
      · rw [if_pos hhelp] at hread
        exact ⟨file, hread⟩
      · rw [if_neg hhelp] at hread
        obtain ⟨file', hrest⟩ := ih ((asksHelp_cons.mp h).resolve_left hhelp) file (arg :: seen)
        exact ⟨file', hread.trans hrest⟩

/-- Otherwise all parts are read. -/
theorem read_line (h : ¬ AsksHelp (words parts)) (file : String) (seen : List String) :
    read file seen (line parts dangling) =
      if dangling then .error .fileMissing
      else .ok ⟨(files parts).getLastD file, .ofWords (seen.reverse ++ words parts)⟩ := by
  induction parts generalizing file seen with
  | nil => cases dangling <;> simp [line, read, files, words]
  | cons p parts ih =>
    cases p with
    | file value =>
      rw [files, List.getLastD_cons]
      exact ih h value seen
    | word arg harg =>
      rw [words, asksHelp_cons, not_or] at h
      have hread := read_word harg file seen (line parts dangling)
      rw [if_neg h.1, ih h.2, List.reverse_cons, List.append_assoc] at hread
      exact hread

theorem ofWords_ne_help (words : List String) : Command.ofWords words ≠ .help := by
  unfold Command.ofWords
  split <;> nofun

theorem ofWords_eq (words : List String) : Command.ofWords words = match words with
    | [] => .byDefault
    | name :: params => if name = "what" then .list else .target name params := by
  cases words with
  | nil => rfl
  | cons name params =>
    by_cases h : name = "what"
    · subst h
      rfl
    · simp [Command.ofWords, h]

/-! ## The answer -/

theorem help_iff : (∃ i, ofArgs (line parts dangling) = .ok i ∧ i.command = .help) ↔
    AsksHelp (words parts) := by
  constructor
  · rintro ⟨i, hi, hcommand⟩
    by_cases hhelp : AsksHelp (words parts)
    · exact hhelp
    · rw [ofArgs, read_line hhelp] at hi
      cases dangling with
      | true => cases hi
      | false =>
        cases hi
        exact absurd hcommand (ofWords_ne_help _)
  · intro hhelp
    obtain ⟨file, hread⟩ := read_help hhelp defaultFile [] (if dangling then ["-f"] else [])
    exact ⟨⟨file, .help⟩, hread, rfl⟩

theorem fileMissing_iff (h : ¬ AsksHelp (words parts)) :
    ofArgs (line parts dangling) = .error .fileMissing ↔ dangling = true := by
  rw [ofArgs, read_line h]
  cases dangling <;> simp

theorem ofArgs_line (h : ¬ AsksHelp (words parts)) :
    ofArgs (line parts false) = .ok ⟨(files parts).getLastD defaultFile, .ofWords (words parts)⟩ := by
  rw [ofArgs, read_line h]
  rfl

/-- Nothing but a word that asks for help makes up for a `-f` without a value. -/
theorem asksHelp_of_ok {i : Invocation} (h : ofArgs (line parts true) = .ok i) :
    AsksHelp (words parts) := by
  by_cases hhelp : AsksHelp (words parts)
  · exact hhelp
  · rw [(fileMissing_iff hhelp).mpr rfl] at h
    cases h

/-! ## Moving a part -/

/-- The command depends on the words, and on whether a `-f` is left without a value. -/
theorem command_congr {parts' : List Part} (h : words parts = words parts') :
    (ofArgs (line parts dangling)).map command = (ofArgs (line parts' dangling)).map command := by
  by_cases hhelp : AsksHelp (words parts)
  · obtain ⟨file, hread⟩ := read_help hhelp defaultFile [] (if dangling then ["-f"] else [])
    rw [h] at hhelp
    obtain ⟨file', hread'⟩ := read_help hhelp defaultFile [] (if dangling then ["-f"] else [])
    rw [ofArgs, ofArgs, line, line, hread, hread']
    rfl
  · have hread : read defaultFile [] (line parts dangling) = _ := read_line hhelp defaultFile []
    rw [h] at hhelp hread
    rw [ofArgs, ofArgs, hread, read_line hhelp]
    cases dangling <;> rfl

theorem line_file (value : String) (back : List Part) (dangling : Bool) :
    "-f" :: value :: line back dangling = line (.file value :: back) dangling := by
  rw [line_cons]
  rfl

theorem words_file (front back : List Part) (value : String) :
    words (front ++ .file value :: back) = words (front ++ back) := by
  rw [words_append, words_append, words]

/-- A `-f` with its value may stand anywhere between other parts. -/
theorem command_moved {before after before' after' : List String} (value : String)
    (hbefore : Whole before) (hbefore' : Whole before') (h : before ++ after = before' ++ after') :
    (ofArgs (before ++ "-f" :: value :: after)).map command =
      (ofArgs (before' ++ "-f" :: value :: after')).map command := by
  obtain ⟨front, rfl⟩ := hbefore
  obtain ⟨front', rfl⟩ := hbefore'
  obtain ⟨back, dangling, rfl⟩ := exists_parts after
  obtain ⟨back', dangling', rfl⟩ := exists_parts after'
  rw [line_append, line_append] at h
  obtain ⟨hparts, rfl⟩ := line_inj h
  rw [line_file, line_file, line_append, line_append]
  apply command_congr
  rw [words_file, words_file, hparts]

/-- Behind a `-f` that has no value, the pair makes no difference where there is a command at all: then
help was asked for. -/
theorem command_moved_last {before after : List String} (value : String) {i : Invocation}
    (hbefore : Whole before) (hlast : ¬ Whole (before ++ after))
    (h : ofArgs (before ++ "-f" :: value :: after) = .ok i) :
    (ofArgs (before ++ "-f" :: value :: after)).map command =
      (ofArgs (before ++ after ++ ["-f", value])).map command := by
  obtain ⟨front, rfl⟩ := hbefore
  obtain ⟨back, dangling, rfl⟩ := exists_parts after
  rw [line_append] at hlast ⊢
  have hdangling : dangling = true := by
    by_cases hd : dangling = true
    · exact hd
    · rw [Bool.not_eq_true] at hd
      subst hd
      exact absurd ⟨_, rfl⟩ hlast
  subst hdangling
  rw [line_file, line_append] at h ⊢
  have hhelp := asksHelp_of_ok h
  obtain ⟨file, hread⟩ := read_help hhelp defaultFile [] ["-f"]
  rw [words_file] at hhelp
  obtain ⟨file', hread'⟩ := read_help hhelp defaultFile [] ["-f", "-f", value]
  have hline : line (front ++ back) true ++ ["-f", value] =
      (front ++ back).flatMap Part.args ++ ["-f", "-f", value] := by
    rw [line, List.append_assoc]
    rfl
  rw [hline, ofArgs, ofArgs, hread']
  show (read _ _ (_ ++ ["-f"])).map command = _
  rw [hread]
  rfl

/-- Every command line can be read in one way as pairs of `-f` with a value and other words, with or
without a last `-f` that has none.  It is answered with help if and only if a word asks for it, else
with an error if and only if there is such a last `-f`, and else the file is the last one named, and
the words decide on the command.  Where a pair stands makes no difference to the command. -/
theorem invocation_of_parts :
    (∀ args, ∃ parts dangling, line parts dangling = args ∧
      ∀ parts' dangling', line parts' dangling' = args → parts' = parts ∧ dangling' = dangling) ∧
    (∀ parts dangling,
      ((∃ i, ofArgs (line parts dangling) = .ok i ∧ i.command = .help) ↔
        AsksHelp (words parts)) ∧
      (¬ AsksHelp (words parts) →
        (ofArgs (line parts dangling) = .error .fileMissing ↔ dangling = true)) ∧
      (¬ AsksHelp (words parts) → dangling = false →
        ofArgs (line parts dangling) = .ok ⟨(files parts).getLastD "lickable", match words parts with
          | [] => .byDefault
          | name :: params => if name = "what" then .list else .target name params⟩)) ∧
    ∀ (before after before' after' : List String) (value : String), Whole before →
      before ++ after = before' ++ after' →
      Whole before' ∨ (after' = [] ∧ ∃ i, ofArgs (before ++ "-f" :: value :: after) = .ok i) →
      (ofArgs (before ++ "-f" :: value :: after)).map command =
        (ofArgs (before' ++ "-f" :: value :: after')).map command := by
  refine ⟨fun args => ?_, fun parts dangling => ⟨help_iff, fileMissing_iff, fun hno hwhole => ?_⟩, ?_⟩
  · obtain ⟨parts, dangling, rfl⟩ := exists_parts args
    exact ⟨parts, dangling, rfl, fun parts' dangling' h => line_inj h⟩
  · rw [hwhole, ofArgs_line hno, ofWords_eq]
    rfl
  · intro before after before' after' value hbefore hsame hplace
    by_cases hbefore' : Whole before'
    · exact command_moved value hbefore hbefore' hsame
    · obtain ⟨rfl, i, hi⟩ := hplace.resolve_left hbefore'
      rw [List.append_nil] at hsame
      subst hsame
      exact command_moved_last value hbefore hbefore' hi

/-- A `-h` that is the value of a `-f` asks for no help, and `-f x` may as well come first. -/
theorem invocation_of_parts_helpAsValue :
    ¬ AsksHelp ["what", "a"] ∧ Whole ["-f", "-h", "what"] ∧ Whole [] ∧
    ofArgs ["-f", "-h", "what", "-f", "x", "a"] = .ok ⟨"x", .list⟩ ∧
    (ofArgs ["-f", "-h", "what", "-f", "x", "a"]).map command =
      (ofArgs ["-f", "x", "-f", "-h", "what", "a"]).map command := by
  have hno : ¬ AsksHelp ["what", "a"] := by decide
  have hfront : Whole ["-f", "-h", "what"] := ⟨[.file "-h", .word "what" (by decide)], rfl⟩
  have hnil : Whole [] := ⟨[], rfl⟩
  obtain ⟨-, hanswer, hmoved⟩ := invocation_of_parts
  have hlist := (hanswer
    [.file "-h", .word "what" (by decide), .file "x", .word "a" (by decide)] false).2.2 hno rfl
  exact ⟨hno, hfront, hnil, hlist,
    hmoved ["-f", "-h", "what"] ["a"] [] ["-f", "-h", "what", "a"] "x" hfront rfl (.inl hnil)⟩

end Kiln.Invocation
