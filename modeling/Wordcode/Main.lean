import Wordcode.Demonstration

/-!
# Command line

The program takes no arguments and prints the demonstration.
-/

def main : IO Unit :=
  IO.print (Wordcode.Demonstration.report Wordcode.Demonstration.text)
