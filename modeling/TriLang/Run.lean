import TriLang.Cursor.Command
import TriLang.Diagnostic.Excerpt
import TriLang.Diagnostic.Report
import TriLang.Options
import TriLang.Tree.Outline

/-!
# Runs of the front end

A run takes a source text through its stages: it is cut into tokens, a program is read from them
and its names are identified.  All that the stages have to say is in one log.  Under the option to
stop after errors, a stage that fails is the last.
-/

namespace TriLang

/-- All that a run produces. -/
structure Run where
  tokens : List Token
  /-- Absent if the run stopped before. -/
  program : Option Program
  naming : Option Naming
  log : Log
  lines : Lines

namespace Run

/-- Whether a run stops after `stage`. -/
def stopsAfter (o : Options) (log : Log) (stage : Stage) : Bool :=
  !o.keepGoing && log.hasFailed stage

/-- A run over `source`. -/
def ofSource (source : String) (o : Options) : Run :=
  let scanned := Tokens.ofSource source
  let log := Log.empty.addAll .tokenizer (scanned.errors.map LexicalError.diagnostic)
  let run : Run := ⟨scanned.toList, none, none, log, .ofSource source⟩
  if stopsAfter o log .tokenizer then run
  else
    let parsed := Program.ofTokens scanned.toList
    let log := log.addAll .parser (parsed.errors.map SyntaxError.diagnostic)
    let run := { run with program := some parsed.node, log }
    if stopsAfter o log .parser then run
    else
      let naming := Naming.ofProgram parsed.node
      let log := log.addAll .identifier (naming.errors.map NamingError.diagnostic)
      { run with naming := some naming, log }

def isOk (r : Run) : Bool := !r.log.hasError

def summary? (r : Run) : Option String := r.log.summary? r.lines

def outline (r : Run) : Option String := r.program.map Program.outline

/-- All diagnostics as shown on a terminal. -/
def render? (r : Run) (o : Options) : Option String := r.log.render? r.lines o.shownName o.color

def report? (r : Run) (o : Options) : Option Report := Report.of? r.lines o.shownName r.log

end Run

end TriLang
