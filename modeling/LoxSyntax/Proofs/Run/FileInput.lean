import LoxSyntax.Proofs.Run.Totality
import LoxSyntax.Proofs.Scan.LineEnds
import LoxSyntax.Proofs.Text.Encoding
import LoxSyntax.Run.Basic

/-! # A text in a file

The contents of a file are decoded and the ends of its lines folded, and a text given as it is goes
through neither. Both make the same run (`Run.file_encode`): what has been encoded is decoded again,
and the carriage returns at the ends of the lines change no token, no line and no diagnostic. -/

namespace LoxSyntax.Run

variable {files : String → Option (List UInt8)} {path source source' : String}

theorem text_congr (h : scanSource source {} = scanSource source' {}) (modes : Modes)
    (strict : Bool) : text source modes strict = text source' modes strict := by
  simp only [text, runSource, h]

/-- The run of a file that holds an encoded text is the run of the text, whatever is asked for, if a
newline follows each carriage return of the text and no string token has one. -/
theorem file_encode (hpath : isSourceFile path = true)
    (hfile : files path = some (Utf8.encode source.toList))
    (hreturns : Text.ReturnsPaired source.toList)
    (hstrings : ∀ tokens scanned, scanSource source {} = (.ok tokens, scanned) →
      ∀ t ∈ tokens, t.kind = .string → '\r' ∉ t.lexeme.toList)
    (modes : Modes) (strict : Bool) : file files path modes strict = text source modes strict := by
  obtain ⟨tokens, scanned, -, hscan, -⟩ := exists_passes source {}
  have hfolded : scanSource (.ofList (Text.foldNewlines source.toList)) {} = scanSource source {} := by
    rw [scanSource_foldNewlines hreturns hscan (hstrings tokens scanned hscan), hscan]
  simp only [file, hpath, if_true, hfile, octets, Utf8.decode_encode]
  exact text_congr hfolded modes strict

/-- A string and a comment, with a carriage return after each. -/
def returnedText : String := .ofList ['"', 'é', '"', '\r', '\n', '/', '/', '\r', '\n']

theorem divides_returnedText :
    Divides returnedText.toList [⟨.lexeme .string, ['"', 'é', '"']⟩, .carriageReturn,
      ⟨.lexeme .newline, ['\n']⟩, ⟨.lexeme .comment, ['/', '/', '\r']⟩,
      ⟨.lexeme .newline, ['\n']⟩] := by
  rw [returnedText, String.toList_ofList]
  have hstring : '"' ∉ ['é'] := by decide
  have hcomment : '\n' ∉ ['\r'] := by decide
  refine .cons (.string hstring) rfl (.cons (.blank rfl) rfl (.cons .newline rfl ?_))
  exact .cons (.comment hcomment (by simp)) rfl (.cons .newline rfl .nil)

theorem file_encode_returnedText :
    Text.ReturnsPaired returnedText.toList ∧
      Text.foldNewlines returnedText.toList ≠ returnedText.toList ∧
      file (fun _ => some (Utf8.encode returnedText.toList)) "a.lox" ⟨false, true⟩ true =
        text returnedText ⟨false, true⟩ true := by
  have hreturns : Text.ReturnsPaired returnedText.toList := by
    rw [returnedText, String.toList_ofList]
    decide
  have hfolded : Text.foldNewlines returnedText.toList ≠ returnedText.toList := by
    rw [returnedText, String.toList_ofList]
    decide
  refine ⟨hreturns, hfolded, file_encode (by decide) rfl hreturns ?_ _ _⟩
  intro tokens scanned hscan
  cases (scanSource_eq divides_returnedText {}).symm.trans hscan
  decide

end LoxSyntax.Run
