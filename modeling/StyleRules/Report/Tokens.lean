import StyleRules.Report.Format
import StyleRules.Text.Quoted
import StyleRules.Token.Stream

/-!
# Reports of tokens
-/

namespace StyleRules.Report

def tokenFlags (flags : Flags) : String :=
  if flags.names.isEmpty then "" else " [" ++ ", ".intercalate flags.names ++ "]"

def tokenLine (lexeme : Lexeme) : String :=
  "  " ++ lexeme.kind.name ++ " @ " ++ lexeme.span.text ++ " " ++
    Quoted.quote lexeme.units.toText ++ tokenFlags lexeme.token.flags ++ "\n"

def tokenRow (lexeme : Lexeme) : String :=
  "\t".intercalate
    [lexeme.kind.name, toString lexeme.start, toString lexeme.stop,
      ",".intercalate lexeme.token.flags.names] ++ "\n"

def tokenHeader : String := "kind\tstart\tend\tflags\n"

def tokens (format : Format) (source : CodeUnits) : String :=
  match format with
  | .text => String.join ((Lexeme.all source).map tokenLine)
  | .tsv => tokenHeader ++ String.join ((Lexeme.all source).map tokenRow)

def tokenCount (path : String) (source : CodeUnits) : String :=
  "Tokens for '" ++ path ++ "' (" ++ toString (Token.all source).length ++ " tokens):\n"

end StyleRules.Report
