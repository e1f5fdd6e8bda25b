import PosixTasks.Lib.Numbers
import PosixTasks.MonteCarlo.Strips

/-!
# The arguments of the client

`parse_arguments` goes through the options that `getopt` returns. The part of it that reads the
addresses after `-i` has unresolved merge markers in the source; it is a parameter here, which
decides whether they are accepted and how many servers they make.

## Main results

* `points_of_parseArguments`: the points of an argument vector that is accepted are the number of
  the last `-p`, stopped at the ends of `long long` and taken modulo 2 ^ 64, and they are not zero.
-/

namespace MonteCarlo

open CString

/-! ## Numbers -/

/-- The number at the start of a text: white space, an optional sign, and decimal digits. Without
digits it is zero. -/
def leadingNumber (s : Text) : ℤ :=
  let (negative, rest) := scanSign (s.dropWhile isSpace)
  let n := digitsValue (leadingDigits rest)
  if negative then -n else n

/-- `strtoll` stops at the ends of `long long`. -/
def clamp (n : ℤ) : ℤ :=
  max (-2 ^ 63) (min n (2 ^ 63 - 1))

/-- `atoll` -/
def atoll (s : Text) : ℤ :=
  clamp (leadingNumber s)

/-- `atoi` -/
def atoi (s : Text) : ℤ :=
  intOfLong (leadingNumber s)

/-! ## `getopt` -/

/-- An option that `getopt` returns; it is `'?'` if it is not known or lacks its argument. Where
there is no argument `optarg` is not read. -/
structure Opt where
  opt : Char
  optarg : Text
  deriving DecidableEq

/-- Whether an option is known, and whether it takes an argument. -/
def takesArgument : Text → Char → Option Bool
  | [], _ => none
  | c :: optstring, opt =>
      if opt = c ∧ opt ≠ ':' then some (optstring.head? = some ':')
      else takesArgument optstring opt

/-- The options in an argument behind its `'-'`, and the last one if it still lacks its
argument. -/
def cluster (optstring : Text) : Text → List Opt × Option Char
  | [] => ([], none)
  | c :: rest =>
    match takesArgument optstring c with
    | some true => if rest = [] then ([], some c) else ([⟨c, rest⟩], none)
    | some false => ((⟨c, []⟩ :: (cluster optstring rest).1), (cluster optstring rest).2)
    | none => ((⟨'?', []⟩ :: (cluster optstring rest).1), (cluster optstring rest).2)

/-- What `getopt` returns for the arguments, with the option `pending` that still lacks its
argument, and the arguments from `optind` on at the end. With `POSIXLY_CORRECT` the options end at
the first other argument, else the others are moved behind them. -/
def getopt (posixlyCorrect : Bool) (optstring : Text) :
    Option Char → List Text → List Opt × List Text
  | none, [] => ([], [])
  | some _, [] => ([⟨'?', []⟩], [])
  | some c, arg :: args =>
      let (opts, others) := getopt posixlyCorrect optstring none args
      (⟨c, arg⟩ :: opts, others)
  | none, arg :: args =>
      if arg = ['-', '-'] then ([], args)
      else
        match arg with
        | '-' :: c :: rest =>
            let (found, pending) := cluster optstring (c :: rest)
            let (opts, others) := getopt posixlyCorrect optstring pending args
            (found ++ opts, others)
        | _ =>
            if posixlyCorrect then ([], arg :: args)
            else
              let (opts, others) := getopt posixlyCorrect optstring none args
              (opts, arg :: others)

/-! ## `parse_arguments` -/

/-- `DEFAULT_POINTS_PER_RECTANGLE` -/
def defaultPointsPerRectangle : UInt64 := 10000000

/-- `DEFAULT_TIMEOUT` -/
def defaultTimeout : ℤ := 2

/-- The option string of `parse_arguments`. -/
def optstring : Text := ['b', 'i', ':', 'n', ':', 'p', ':', 't', ':', 'h']

/-- What `parse_arguments` has set; `ipArg` is there if `-i` was seen. -/
structure Arguments where
  useBroadcast : Bool
  pointsPerRectangle : UInt64
  timeout : ℤ
  ipArg : Option Text
  serverCount : ℕ

/-- Before the first option. -/
def Arguments.default : Arguments :=
  { useBroadcast := true, pointsPerRectangle := defaultPointsPerRectangle,
    timeout := defaultTimeout, ipArg := none, serverCount := 0 }

/-- How `parse_arguments` ends. -/
inductive Parsed where
  /-- It returns 0. -/
  | accepted (args : Arguments)
  /-- It returns 1. -/
  | help
  /-- It returns -1. -/
  | rejected

/-- The loop over the options. -/
def parseOptions : List Opt → Arguments → Parsed
  | [], args => .accepted args
  | ⟨opt, optarg⟩ :: opts, args =>
    if opt = 'b' then parseOptions opts { args with useBroadcast := true }
    else if opt = 'i' then
      parseOptions opts { args with useBroadcast := false, ipArg := some optarg }
    else if opt = 'p' then
      let points := UInt64.ofInt (atoll optarg)
      if points = 0 then .rejected else parseOptions opts { args with pointsPerRectangle := points }
    else if opt = 't' then
      let timeout := atoi optarg
      if timeout ≤ 0 then .rejected else parseOptions opts { args with timeout }
    else if opt = 'h' then .help
    else .rejected

/-- `parse_arguments` on the arguments behind the name of the program. `servers` is the part with
the merge markers: the servers that `-i` and the other arguments name, unless one of them is
rejected. -/
def parseArguments (posixlyCorrect : Bool) (servers : Text → List Text → Option ℕ)
    (argv : List Text) : Parsed :=
  let (opts, others) := getopt posixlyCorrect optstring none argv
  match parseOptions opts .default with
  | .accepted args =>
    match args.ipArg with
    | none => .accepted args
    | some ipArg =>
      match servers ipArg others with
      | none | some 0 => .rejected
      | some serverCount => .accepted { args with serverCount }
  | .help => .help
  | .rejected => .rejected

/-- The number of points that the user asks for: the number of the last `-p`, else the default. -/
def askedPoints (posixlyCorrect : Bool) (argv : List Text) : ℤ :=
  (getopt posixlyCorrect optstring none argv).1.foldl
    (fun n o => if o.opt = 'p' then leadingNumber o.optarg else n)
    defaultPointsPerRectangle.toNat

/-! ## The points of accepted arguments -/

/-- Each `-p` sets the points to its own number. -/
theorem points_of_parseOptions {opts : List Opt} {args args' : Arguments} {n : ℤ}
    (hpoints : args.pointsPerRectangle = UInt64.ofInt (clamp n))
    (hne : args.pointsPerRectangle ≠ 0) (h : parseOptions opts args = .accepted args') :
    args'.pointsPerRectangle = UInt64.ofInt (clamp (opts.foldl
        (fun n o => if o.opt = 'p' then leadingNumber o.optarg else n) n)) ∧
      args'.pointsPerRectangle ≠ 0 := by
  induction opts generalizing args n with
  | nil =>
    cases h
    exact ⟨hpoints, hne⟩
  | cons o opts ih =>
    obtain ⟨opt, optarg⟩ := o
    rw [parseOptions] at h
    rw [List.foldl_cons]
    by_cases hp : opt = 'p'
    · subst hp
      simp only [Char.reduceEq, if_false, if_true] at h
      split at h
      · cases h
      next hpositive => exact ih rfl hpositive h
    · rw [if_neg hp] at h ⊢
      -- the other options leave the points as they are
      split at h
      next => refine ih ?_ ?_ h <;> assumption
      next =>
        split at h
        next => refine ih ?_ ?_ h <;> assumption
        next =>
          split at h
          next =>
            dsimp only at h
            split at h
            · cases h
            · refine ih ?_ ?_ h <;> assumption
          next => split at h <;> cases h

theorem points_of_parseArguments {posixlyCorrect : Bool} {servers : Text → List Text → Option ℕ}
    {argv : List Text} {args : Arguments}
    (h : parseArguments posixlyCorrect servers argv = .accepted args) :
    args.pointsPerRectangle = UInt64.ofInt (clamp (askedPoints posixlyCorrect argv)) ∧
      args.pointsPerRectangle ≠ 0 := by
  simp only [parseArguments] at h
  cases hparse : parseOptions (getopt posixlyCorrect optstring none argv).1 .default with
  | accepted parsed =>
    have hpoints := points_of_parseOptions (n := defaultPointsPerRectangle.toNat) (by decide)
      (by decide) hparse
    simp only [hparse] at h
    split at h
    · cases h
      exact hpoints
    · split at h
      · cases h
      · cases h
      · cases h
        exact hpoints
  | help => simp [hparse] at h
  | rejected => simp [hparse] at h

end MonteCarlo
