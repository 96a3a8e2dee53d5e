import TemplateTag.Demo
/-!
# The command line

Prints the demonstration.
-/

def main : IO Unit := do
  let (out, err) := TemplateTag.Demo.lines
  IO.print (String.ofList (TemplateTag.Demo.unlines out))
  IO.eprint (String.ofList (TemplateTag.Demo.unlines err))
