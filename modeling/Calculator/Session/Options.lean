import Calculator.Session.Basic

/-!
# Command line options

The options say how results are written and where lines come from: a script file, the command line
itself, or else a conversation.
-/

namespace Calculator

structure Options where
  isFile : Bool
  precision : Nat
  plotSamples : Nat
  contents : Option String

namespace Options

def usual : Options :=
  ⟨false, Session.fresh.precision, Session.fresh.plotSamples, none⟩

def session (o : Options) : Session :=
  ⟨.fresh, o.precision, o.plotSamples⟩

/-- Takes the one argument that is not an option. -/
def setContents? (o : Options) : List String → Option Options
  | [] => some o
  | [contents] => if o.contents.isNone then some { o with contents := some contents } else none
  | _ => none

/-- Reads options from left to right; after `--` there are none. This is a reduced reader of command
lines, and no theorem is about it: an option and its value are an argument each, so that `-p5`,
`--precision=5` and `-fp 3` are refused, as are `--help` and `--version`, and of an option given
twice the last one counts. -/
def read? (o : Options) : List String → Option Options
  | [] => some o
  | "--" :: rest => o.setContents? rest
  | "-f" :: rest => { o with isFile := true }.read? rest
  | "--file" :: rest => { o with isFile := true }.read? rest
  | "-p" :: count :: rest =>
    count.toNat?.bind fun precision => { o with precision := precision }.read? rest
  | "--precision" :: count :: rest =>
    count.toNat?.bind fun precision => { o with precision := precision }.read? rest
  | "--plot-samples" :: count :: rest =>
    count.toNat?.bind fun samples => { o with plotSamples := samples }.read? rest
  | argument :: rest =>
    if argument.startsWith "-" then none
    else (o.setContents? [argument]).bind fun o => o.read? rest

def usage : String :=
  "usage: [--file] [--precision <places>] [--plot-samples <count>] [--] [expression or path]"

end Options

end Calculator
