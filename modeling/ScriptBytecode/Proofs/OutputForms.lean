import ScriptBytecode.CommandLine.Run
import ScriptBytecode.Proofs.ProgramDocument

/-!
# The two forms of the output

Compiling writes a program as a document or as a listing. The two forms are written from the same program, so they fail
together, and writing the document adds no failure of its own: a program that was compiled is valid. Reading the
document gives that program back, so its disassembly is the listing that compiling writes.
-/

namespace ScriptBytecode

/-- The program that is compiled from the text of a syntax tree. -/
def compiledProgram (text : String) : Except (List Cause) Program :=
  match Chunk.parse text with
  | .error fault => .error [.message "Invalid syntax tree", .document fault]
  | .ok chunk => chunk.compile.mapError fun error => [.message error.message]

theorem validate_of_compile {chunk : Chunk} {program : Program} (h : chunk.compile = .ok program) :
    program.validate = .ok () := by
  unfold Chunk.compile at h
  cases hlower : lowerChunk chunk .empty with
  | error error => simp [hlower] at h
  | ok result =>
      simp only [hlower] at h
      obtain ⟨-, -, hvalid⟩ := finish_eq_ok_iff.mp h
      exact hvalid

theorem validate_of_compiledProgram {text : String} {program : Program} (h : compiledProgram text = .ok program) :
    program.validate = .ok () := by
  unfold compiledProgram at h
  cases hparse : Chunk.parse text with
  | error fault => simp [hparse] at h
  | ok chunk =>
      cases hcompile : chunk.compile with
      | error error => simp [hparse, hcompile, Except.mapError] at h
      | ok compiled =>
          simp only [hparse, hcompile, Except.mapError, Except.ok.injEq] at h
          exact h ▸ validate_of_compile hcompile

namespace Program

open Json

/-- The document of a program that ends its last line. -/
def document (program : Program) : String :=
  String.ofList (program.toJson.indented 0) ++ "\n"

theorem indented_of_validate {program : Program} (h : program.validate = .ok ()) :
    program.indented = .ok (String.ofList (program.toJson.indented 0)) := by
  simp [indented, h, bind, Except.bind, pure, Except.pure]

/-- The end of the line is a blank behind the value. -/
theorem parse_document {program : Program} (h : program.validate = .ok ()) (hnumbers : program.NumbersReadBack) :
    parse program.document = .ok program := by
  have hline : AllBlank ['\n'] := by
    intro c hmem
    obtain rfl := List.mem_singleton.mp hmem
    rfl
  have hparse := parse_of_spells h (spells_indented (writable_toJson 122 hnumbers) 0) allBlank_nil hline
  rwa [List.nil_append, String.ofList_append] at hparse

end Program

theorem disassembleText_document {program : Program} (h : program.validate = .ok ())
    (hnumbers : program.NumbersReadBack) : disassembleText program.document = .ok program.listing := by
  simp only [disassembleText, Program.parse_document h hnumbers]

/-- Both forms are written from the program of the text, and only its failures are failures of compiling. -/
theorem compileText_eq (structured : Bool) (text : String) :
    compileText structured text =
      (compiledProgram text).map fun program => if structured then program.document else program.listing := by
  unfold compileText compiledProgram
  cases hparse : Chunk.parse text with
  | error fault => rfl
  | ok chunk =>
      cases hcompile : chunk.compile with
      | error error => simp [hcompile, Except.mapError, Except.map]
      | ok program =>
          -- Writing the document checks the program once more, which cannot fail.
          have hindented := Program.indented_of_validate (validate_of_compile hcompile)
          cases structured with
          | true => simp [hcompile, hindented, Except.mapError, Except.map, Program.document]
          | false => simp [hcompile, Except.mapError, Except.map]

/-- What the two forms of the output have to do with each other. Without a program they fail for the same causes. With
one, both are written. If the reader gets each number of the program back from the way it is written, the document is
read back as the program, and disassembling a file that holds the document prints what compiling writes as the
listing. -/
theorem compileText_forms_agree (text : String) :
    (∃ causes, compiledProgram text = .error causes ∧
      compileText false text = .error causes ∧ compileText true text = .error causes) ∨
    ∃ program document, compiledProgram text = .ok program ∧
      compileText true text = .ok (document ++ "\n") ∧ program.indented = .ok document ∧
      compileText false text = .ok program.listing ∧
      (program.NumbersReadBack →
        Program.parse (document ++ "\n") = .ok program ∧ disassembleText (document ++ "\n") = .ok program.listing ∧
        ∀ view settings input, view.read (.given input) = .ok (document ++ "\n") →
          planCommand view settings (.disassemble input) = .ok (.print program.listing)) := by
  cases hprogram : compiledProgram text with
  | error causes => exact .inl ⟨causes, rfl, by simp [compileText_eq, hprogram, Except.map]⟩
  | ok program =>
      have hvalid := validate_of_compiledProgram hprogram
      refine .inr ⟨program, String.ofList (program.toJson.indented 0), rfl, ?_, Program.indented_of_validate hvalid,
        ?_, ?_⟩
      · simp [compileText_eq, hprogram, Except.map, Program.document]
      · simp [compileText_eq, hprogram, Except.map]
      · intro hnumbers
        have hlisting := disassembleText_document hvalid hnumbers
        refine ⟨Program.parse_document hvalid hnumbers, hlisting, ?_⟩
        intro view settings input hread
        have hfile : readFile view (.given input) = .ok program.document := by
          unfold readFile
          rw [hread]
          rfl
        unfold planCommand
        simp only [hfile, bind, Except.bind, hlisting]
        rfl

/-- The text of a script that declares a variable with a number that has no exact double. -/
def declaredTenth : String :=
  "\x7b\"type\":\"Chunk\",\"body\":[\x7b\"type\":\"LocalStatement\"," ++
    "\"variables\":[\x7b\"type\":\"Identifier\",\"name\":\"a\"\x7d]," ++
    "\"init\":[\x7b\"type\":\"NumericLiteral\",\"value\":0.1\x7d]\x7d]\x7d"

theorem compileText_forms_agree_declaredTenth :
    ∃ program listing document, compiledProgram declaredTenth = .ok program ∧ program.NumbersReadBack ∧
      compileText false declaredTenth = .ok listing ∧
      listing = "NEWSCOPE r1\nLOAD k0 r2\nSCOPESET r1 k1 r2\n\nk0: 0.1\nk1: a\n" ∧
      compileText true declaredTenth = .ok (document ++ "\n") ∧ disassembleText (document ++ "\n") = .ok listing := by
  have hlisting : compileText false declaredTenth =
      .ok "NEWSCOPE r1\nLOAD k0 r2\nSCOPESET r1 k1 r2\n\nk0: 0.1\nk1: a\n" := by decide +kernel
  have hread : (compiledProgram declaredTenth).toOption.all (fun program => decide program.NumbersReadBack) = true := by
    decide +kernel
  rcases compileText_forms_agree declaredTenth with
    ⟨causes, -, hfailed, -⟩ | ⟨program, document, hprogram, hdocument, -, hplain, hagrees⟩
  · rw [hlisting] at hfailed
    cases hfailed
  · rw [hprogram] at hread
    have hnumbers : program.NumbersReadBack := of_decide_eq_true hread
    obtain ⟨-, hdisassembled, -⟩ := hagrees hnumbers
    rw [← hplain, hlisting] at hdisassembled
    exact ⟨program, _, document, hprogram, hnumbers, hlisting, rfl, hdocument, hdisassembled⟩

end ScriptBytecode
