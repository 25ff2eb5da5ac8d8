import LetPoly.Sample

/-! # The command line

Arguments are source texts and three flags, which may stand anywhere among
them: `--demo` for the samples, `--subst` for the substitutions, and `-v` or
`--verbose` for more log.  Behind `--` every argument is a source text, and so
is a lone `-`.
-/

namespace LetPoly.CommandLine

/-- What the arguments ask for. -/
structure Options where
  /-- Whether to run the samples. -/
  demo : Bool
  /-- Whether to print the substitution as well. -/
  subst : Bool
  /-- The expressions given, in order. -/
  sources : List String
deriving DecidableEq

/-- The options of no arguments. -/
def Options.none : Options :=
  ⟨false, false, []⟩

/-- Whether an argument is `-v`, with any number of `v`s. -/
def isVerbose (arg : String) : Bool :=
  match arg.toList with
  | '-' :: 'v' :: cs => cs.all (· = 'v')
  | _ => false

/-- Whether an argument is a source text even if flags may come. -/
def isSource (arg : String) : Bool :=
  arg = "-" || arg.toList.head? ≠ some '-'

/-- Read the arguments.  A flag that is not known, and `--demo` or `--subst` given
twice, are errors. -/
def options? : List String → Option Options
  | [] => some .none
  | "--" :: args => some { Options.none with sources := args }
  | arg :: args => do
      let rest ← options? args
      if isSource arg then some { rest with sources := arg :: rest.sources }
      else if arg = "--demo" then if rest.demo then none else some { rest with demo := true }
      else if arg = "--subst" then if rest.subst then none else some { rest with subst := true }
      else if arg = "--verbose" || isVerbose arg then some rest
      else none

/-- What a program leaves behind. -/
structure Output where
  /-- The text printed. -/
  stdout : String
  /-- The code returned. -/
  exitCode : UInt8
deriving DecidableEq

/-- The output of the program: the samples if they are asked for or there is
nothing else to do, then the report on every source text. -/
def run (args : List String) : Output :=
  match options? args with
  | none => ⟨"", 2⟩
  | some options =>
      let demo :=
        if options.demo || options.sources.isEmpty then Sample.reports.map (· ++ "\n") else []
      ⟨String.join (demo ++ options.sources.map (reportSource options.subst)), 0⟩

end LetPoly.CommandLine
