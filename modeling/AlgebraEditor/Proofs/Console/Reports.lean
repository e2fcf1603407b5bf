import AlgebraEditor.Console.Script
import AlgebraEditor.Proofs.Formula.Blame
import AlgebraEditor.Proofs.Session.Memory
import AlgebraEditor.Text.EditDistance
import Mathlib.Data.List.DropRight

/-!
# Reports on texts that do not parse

The argument of a line is cut out twice: behind the colon and the name, to be parsed, and behind the
first word of the whole line, to be reported on. Both are the same text
(`reportedText_eq_argument`), so a parse error points into what was parsed.
-/

namespace AlgebraEditor

/-! ### Trimming -/

namespace Text

variable {cs before : List Char}

theorem trimStart_of_isPrefix (within : before <+: trimStart cs) : trimStart before = before := by
  cases before with
  | nil => rfl
  | cons c rest =>
    obtain ⟨more, whole⟩ := within
    have first := List.head?_dropWhile_not isBlank cs
    rw [show cs.dropWhile isBlank = _ from whole.symm] at first
    rw [trimStart, List.dropWhile_cons_of_neg (by simpa using first)]

theorem trim_trim (cs : List Char) : trim (trim cs) = trim cs := by
  have within : trimEnd (trimStart cs) <+: trimStart cs := List.rdropWhile_prefix isBlank _
  rw [trim, trim, trimStart_of_isPrefix within]
  exact List.rdropWhile_idempotent isBlank (trimStart cs)

end Text

/-! ### Texts that do not parse -/

namespace Session

variable {s t : Session} {text : List Char} {e : Formula.ParseError}

theorem plantText_of_setExpression (failed : (setExpression text).run s = .ok (.error e, t)) :
    (Edit.plantText text).run s.arena = .ok (.error e) t.arena := by
  obtain ⟨answer, u, read, rest⟩ := SessionStep.run_bind_eq_ok.mp failed
  obtain ⟨b, planted, rfl⟩ := SessionStep.run_edit_eq_ok.mp read
  cases answer with
  | error _ =>
    cases rest
    exact planted
  | ok _ =>
    obtain ⟨_, _, -, rest⟩ := SessionStep.run_bind_eq_ok.mp rest
    obtain ⟨_, _, -, rest⟩ := SessionStep.run_bind_eq_ok.mp rest
    obtain ⟨_, _, -, rest⟩ := SessionStep.run_bind_eq_ok.mp rest
    cases rest

theorem plantText_of_editSelected (failed : (editSelected text).run s = .ok (.error e, t)) :
    (Edit.plantText text).run s.arena = .ok (.error e) t.arena := by
  obtain ⟨answer, u, read, rest⟩ := SessionStep.run_bind_eq_ok.mp failed
  obtain ⟨b, planted, rfl⟩ := SessionStep.run_edit_eq_ok.mp read
  cases answer with
  | error _ =>
    cases rest
    exact planted
  | ok _ =>
    obtain ⟨_, _, -, rest⟩ := SessionStep.run_bind_eq_ok.mp rest
    cases rest

end Session

namespace Console

open Session

variable {distance : List Char → List Char → Nat} {s t : Session}
  {line text name argument : List Char} {command : Command} {e : Formula.ParseError}

/-- Only a text that is set or edited is parsed. -/
theorem plantText_of_execute (failed : (execute command).run s = .ok (.error (.parse e), t)) :
    ∃ text, (command = .set text ∨ command = .edit text) ∧
      (Edit.plantText text).run s.arena = .ok (.error e) t.arena := by
  cases command with
  | navigate direction =>
    obtain ⟨answer, _, -, rest⟩ := SessionStep.run_bind_eq_ok.mp failed
    cases answer with
    | error _ => cases rest
    | ok _ =>
      obtain ⟨_, _, -, rest⟩ := SessionStep.run_bind_eq_ok.mp rest
      cases rest
  | action key =>
    obtain ⟨done, _, -, rest⟩ := SessionStep.run_bind_eq_ok.mp failed
    dsimp only at rest
    split at rest
    all_goals
      obtain ⟨_, _, -, rest⟩ := SessionStep.run_bind_eq_ok.mp rest
      cases rest
  | set text =>
    obtain ⟨answer, _, refused, rest⟩ := SessionStep.run_bind_eq_ok.mp failed
    cases answer with
    | error _ =>
      cases rest
      exact ⟨text, .inl rfl, plantText_of_setExpression refused⟩
    | ok _ =>
      obtain ⟨_, _, -, rest⟩ := SessionStep.run_bind_eq_ok.mp rest
      cases rest
  | edit text =>
    obtain ⟨answer, _, refused, rest⟩ := SessionStep.run_bind_eq_ok.mp failed
    match answer with
    | .error _ =>
      cases rest
      exact ⟨text, .inr rfl, plantText_of_editSelected refused⟩
    | .ok true | .ok false =>
      obtain ⟨_, _, -, rest⟩ := SessionStep.run_bind_eq_ok.mp rest
      cases rest
  | text =>
    obtain ⟨_, _, -, rest⟩ := SessionStep.run_bind_eq_ok.mp failed
    cases rest
  | help => cases failed
  | quit => cases failed

/-! ### The argument of a line -/

theorem ofTrimmed?_of_ofLine (asked : Command.ofLine distance line = .ok command) :
    Command.ofTrimmed? (Text.trim line) = some command := by
  rw [Command.ofLine] at asked
  split at asked
  · rename_i found
    cases asked
    exact found
  · cases asked

theorem argument_of_colonCommand? (found : colonCommand? name argument = some command)
    (parses : command = .set text ∨ command = .edit text) : argument = text := by
  rw [colonCommand?] at found
  split at found
  all_goals cases found
  all_goals rcases parses with same | same <;> cases same
  · rfl
  · rfl

theorem keyCommand?_ne {key : String} (found : keyCommand? key = some command) :
    command ≠ .set text ∧ command ≠ .edit text := by
  rw [keyCommand?] at found
  split at found
  · cases found
    exact ⟨nofun, nofun⟩
  · obtain ⟨_, -, rfl⟩ := Option.map_eq_some_iff.mp found
    exact ⟨nofun, nofun⟩

/-- A line whose argument is parsed begins with a colon. -/
theorem eq_colon_of_ofTrimmed? (found : Command.ofTrimmed? line = some command)
    (parses : command = .set text ∨ command = .edit text) :
    ∃ body, line = ':' :: body ∧ (nameAndArgument body).2 = text := by
  unfold Command.ofTrimmed? at found
  split at found
  · rename_i body
    exact ⟨body, rfl, argument_of_colonCommand? found parses⟩
  · obtain ⟨noSet, noEdit⟩ := @keyCommand?_ne text command _ found
    exact (parses.elim noSet noEdit).elim

theorem splitAtBlank_colon (body : List Char) : Text.splitAtBlank (':' :: body) =
    (Text.splitAtBlank body).map fun (before, after) => (':' :: before, after) := rfl

/-- What is cut out of a line to be reported on is what was cut out of it to be parsed. -/
theorem reportedText_eq_argument (asked : Command.ofLine distance line = .ok command)
    (parses : command = .set text ∨ command = .edit text) : reportedText line = text := by
  obtain ⟨body, trimmed, rfl⟩ := eq_colon_of_ofTrimmed? (ofTrimmed?_of_ofLine asked) parses
  rw [reportedText, trimmed, splitAtBlank_colon, nameAndArgument]
  cases Text.splitAtBlank body <;> rfl

theorem runLine_of_failed (asked : Command.ofLine distance line = .ok command)
    (parses : command = .set text ∨ command = .edit text)
    (failed : (execute command).run s = .ok (.error (.parse e), t)) :
    (runLine distance line).run s = .ok (⟨[], some ⟨reportedText line, .parse e⟩, false⟩, t) := by
  obtain ⟨body, trimmed, -⟩ := eq_colon_of_ofTrimmed? (ofTrimmed?_of_ofLine asked) parses
  have asked' : Command.ofLine distance (Text.trim line) = .ok command := by
    rw [← asked, Command.ofLine, Command.ofLine, Text.trim_trim]
  have same : reportedText (Text.trim line) = reportedText line := by
    rw [reportedText, reportedText, Text.trim_trim]
  have solid : ¬ ((Text.trim line).isEmpty || (Text.trim line).head? = some '#') := by
    rw [trimmed]
    simp
  unfold runLine
  rw [if_neg solid, asked', SessionStep.run_bind_of_ok failed, ← same]
  rfl

/-- A line fails to parse only if a text is set or edited. The report is on the text that was parsed,
however the line is spaced, and the error spans characters of it. -/
theorem parse_error_points_into_argument (wf : s.arena.WellFormed)
    (asked : Command.ofLine distance line = .ok command)
    (failed : (execute command).run s = .ok (.error (.parse e), t)) :
    ∃ text, (command = .set text ∨ command = .edit text) ∧
      (Edit.plantText text).run s.arena = .ok (.error e) t.arena ∧
      reportedText line = text ∧
      (runLine distance line).run s = .ok (⟨[], some ⟨text, .parse e⟩, false⟩, t) ∧
      Formula.Covers text e.span.start e.span.stop ∧
      e.span.start ≤ e.span.stop ∧ e.span.stop ≤ Formula.byteCount text := by
  obtain ⟨text, parses, planted⟩ := plantText_of_execute failed
  have same := reportedText_eq_argument asked parses
  have run := runLine_of_failed asked parses failed
  rw [same] at run
  have covers := Formula.covers_of_parse (Edit.parse_of_run_error wf planted).1
  exact ⟨text, parses, planted, same, run, covers, covers.bounds⟩

/-- Blanks of three bytes stand around the command and within its argument, and the letter that is
not part of the notation takes two. -/
theorem parse_error_points_into_argument_of_letter :
    Command.ofLine Text.editDistance "\u3000:set\u2003 x\u2003+ é\u3000".toList =
      .ok (.set "x\u2003+ é".toList) ∧
    (execute (.set "x\u2003+ é".toList)).run (.ofArena .zero) =
      .ok (.error (.parse ⟨.unknownCharacter ['é'], ⟨6, 8⟩⟩), .ofArena .zero) ∧
    reportedText "\u3000:set\u2003 x\u2003+ é\u3000".toList = "x\u2003+ é".toList ∧
    (runLine Text.editDistance "\u3000:set\u2003 x\u2003+ é\u3000".toList).run (.ofArena .zero) =
      .ok (⟨[], some ⟨"x\u2003+ é".toList, .parse ⟨.unknownCharacter ['é'], ⟨6, 8⟩⟩⟩, false⟩,
        .ofArena .zero) ∧
    Formula.Covers "x\u2003+ é".toList 6 8 ∧ 8 ≤ Formula.byteCount "x\u2003+ é".toList := by
  have asked : Command.ofLine Text.editDistance "\u3000:set\u2003 x\u2003+ é\u3000".toList =
      .ok (.set "x\u2003+ é".toList) := rfl
  have failed : (execute (.set "x\u2003+ é".toList)).run (.ofArena .zero) =
      .ok (.error (.parse ⟨.unknownCharacter ['é'], ⟨6, 8⟩⟩), .ofArena .zero) := rfl
  obtain ⟨text, parses, -, reported, run, covers, -, within⟩ :=
    parse_error_points_into_argument Arena.wellFormed_zero asked failed
  rcases parses with same | same
  · cases same
    exact ⟨asked, failed, reported, run, covers, within⟩
  · cases same

end Console

end AlgebraEditor
