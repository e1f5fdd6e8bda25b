import PosixTasks.Lib.CString

/-!
# Parsing a command line

`ParseCommandLine` takes the tokens of the line one after the other, as `strtok_r` finds them
between blanks, and looks for `|` in each of them: a token that is `|` opens a new command, a
token with `|` in it is cut at the first one, and every other token is an argument.

The arrays are modelled by the lists of what has been stored in them. No allocation fails, so that
`ALLOC_ERR` and the tests for `NULL` it comes from are left out.
-/

namespace Shell

open CString

/-- `MAX_ARGS`, the size of `argv`. -/
def maxArgs : ℕ := 256

/-- `MAX_COMMANDS`, the size of `cmds`. -/
def maxCommands : ℕ := 16

/-- What `ParseCommandLine` returns if it does not return `OK`. -/
inductive CmdError where
  | tooManyCommands
  | tooManyArgs
  deriving DecidableEq

/-- A `Command`: the arguments in `argv`. The entry behind the last one is `NULL`. -/
structure Command where
  argv : List Text
  deriving DecidableEq

/-- `argc` -/
def Command.argc (cmd : Command) : ℕ := cmd.argv.length

/-- `argv[0]`; `none` if it is `NULL`. -/
def Command.name (cmd : Command) : Option Text := cmd.argv.head?

/-- A `CommandLine`: the commands below `cmd_count`. -/
structure CommandLine where
  cmds : List Command
  deriving DecidableEq

/-- `cmd_count` -/
def CommandLine.cmdCount (line : CommandLine) : ℕ := line.cmds.length

/-! ## Tokens -/

/-- `ARGUMENT_SEPARATORS` -/
def isSeparator (c : Char) : Bool :=
  c = ' ' ∨ c = '\t' ∨ c = '\n'

/-- What `strtok_r(…, ARGUMENT_SEPARATORS, …)` returns in one call after the other. -/
def tokens (input : Text) : List Text :=
  (input.splitOnP isSeparator).filter (· ≠ [])

/-- `fixBeforeTok`: what is in front of the first `|`; `none` for `NULL`. -/
def fixBeforeTok (tok : Text) : Option Text :=
  let before := tok.takeWhile (· ≠ '|')
  if before = [] then none else some before

/-- `fixAfterTok`: what is behind the first `|`, without leading white space; `none` for `NULL`. -/
def fixAfterTok (tok : Text) : Option Text :=
  let pipePos := tok.dropWhile (· ≠ '|')
  if pipePos.length = 1 then none else some (pipePos.tail.dropWhile isSpace)

/-! ## The loop -/

/-- The command line while it is parsed. -/
structure Parsing where
  /-- the commands below `out->cmd_count` -/
  before : List Command
  /-- `out->cmds[out->cmd_count]` -/
  cur : Command

/-- `InitCommand` on the first entry of `cmds`. -/
def Parsing.init : Parsing := ⟨[], ⟨[]⟩⟩

/-- `AddArgument` on the current command. -/
def Parsing.addArgument (p : Parsing) (arg : Text) : Except CmdError Parsing :=
  if maxArgs - 1 ≤ p.cur.argc then .error .tooManyArgs
  else .ok { p with cur := ⟨p.cur.argv ++ [arg]⟩ }

/-- `AddArgument`, if the argument is not `NULL`. -/
def Parsing.addOptional (p : Parsing) (arg : Option Text) : Except CmdError Parsing :=
  match arg with
  | some arg => p.addArgument arg
  | none => .ok p

/-- `out->cmd_count++` and `InitCommand` on the next entry. -/
def Parsing.nextCommand (p : Parsing) : Except CmdError Parsing :=
  if maxCommands ≤ p.before.length + 1 then .error .tooManyCommands
  else .ok ⟨p.before ++ [p.cur], ⟨[]⟩⟩

/-- One round of the loop of `ParseCommandLine`. -/
def Parsing.takeToken (p : Parsing) (tok : Text) : Except CmdError Parsing :=
  if tok = ['|'] then p.nextCommand
  else if '|' ∈ tok then do
    let p ← p.addOptional (fixBeforeTok tok)
    let p ← p.nextCommand
    p.addOptional (fixAfterTok tok)
  else p.addArgument tok

/-- The last command counts if it has arguments. -/
def Parsing.finish (p : Parsing) : CommandLine :=
  if 0 < p.cur.argc then ⟨p.before ++ [p.cur]⟩ else ⟨p.before⟩

/-- `ParseCommandLine` on a fresh `CommandLine`. -/
def parseCommandLine (input : Text) : Except CmdError CommandLine := do
  let p ← (tokens input).foldlM Parsing.takeToken Parsing.init
  return p.finish

end Shell
