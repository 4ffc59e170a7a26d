import AutoCool.Cool.Report

/-!
# The command line

Reads the text of a program from the standard input and prints the page about it.
-/

namespace AutoCool.Cool

def Block.line : Block → String
  | .title s => "# " ++ s
  | .subheader s => "## " ++ s
  | .textArea s | .button s => "[" ++ s ++ "]"
  | .error s | .success s | .warning s => "* " ++ s
  | .write s => s

def Page.text (p : Page) : String := p.printed ++ String.join (p.blocks.map fun b => b.line ++ "\n")

end AutoCool.Cool

def main : IO Unit := do
  let input ← (← IO.getStdin).readToEnd
  let page := AutoCool.Cool.Page.ofText input
  IO.print page.text
