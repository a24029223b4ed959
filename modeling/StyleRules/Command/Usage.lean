/-!
# Help texts
-/

namespace StyleRules.Usage

def lines (texts : List String) : String := String.join (texts.map fun line => line ++ "\n")

def general : String :=
  lines
    ["restyle: CSS declaration scanner and rule rewriter",
      "",
      "Usage: restyle <command> [options]",
      "",
      "Commands:",
      "  scan <file.css>      List declarations and their resolved rules",
      "  tokens <file.css>    Tokenize and display tokens",
      "  rewrite <file.css>   Apply the bundled rules and print the result",
      "  build-rules -o <f>   Write the bundled rules as a table asset",
      "  help                 Show this help message",
      "  version              Show version information",
      "",
      "Options:",
      "  --rules=<file>      Rule table asset for scan (default: bundled rules)",
      "  --format=<fmt>      Output format for scan and tokens: text, tsv",
      "  -o <path>           Output file (default: stdout)",
      "  --children=<path>   Children declarations from rewrite (default: dropped)",
      "",
      "Environment:",
      "  RESTYLE_LOG         Tracing filter, e.g. restyle_scan=trace",
      "  RUST_LOG            Fallback tracing filter",
      "",
      "Examples:",
      "  restyle scan style.css",
      "  restyle scan style.css --rules=rules.bin --format=tsv",
      "  restyle rewrite style.css -o out.css",
      "  restyle rewrite style.css -o out.css --children=kids.css",
      "  restyle build-rules -o rules.bin"]

def scan : String :=
  lines
    ["Usage: restyle scan <file.css> [options]",
      "",
      "Options:",
      "  --rules=<file>      Rule table asset (default: bundled rules)",
      "  --format=<fmt>      Output format: text, tsv",
      "  -o <path>           Output file"]

def tokens : String :=
  lines
    ["Usage: restyle tokens <file.css> [--format=<fmt>] [-o <path>]"]

def expand : String :=
  lines
    ["Usage: restyle rewrite <file.css> [-o <path>] [--children=<path>]"]

def version : String :=
  lines
    ["restyle 0.1.0"]

end StyleRules.Usage
