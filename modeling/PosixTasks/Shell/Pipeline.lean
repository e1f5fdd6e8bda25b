import PosixTasks.Lib.Filters
import PosixTasks.Shell.ExitCodes

/-!
# What a pipeline computes

Here the commands do something: each is a filter that reads its descriptor 0 and writes its
descriptor 1, a byte at a time, and what these stand for is found in the table that the child has
got from `RunCmd`. An empty pipe is at its end if no process has its end for writing open; a write
to a pipe that no process can read any more ends the command with `SIGPIPE`; a write to a pipe
that is full waits. The parent, the calls of the children in front of `execvp` and the commands
that run already take their steps in any order.

The commands themselves are parameters; one that cannot be executed exits at once. They do not
read or write any other descriptor, and none of them ignores `SIGPIPE`.

## Main results

* `Runs.move`, `chain_of_shell`: the pipeline refines a chain of filters, in which a channel
  is at its end once the filter in front has ended, whatever the shell has open meanwhile;
* `composed_of_init`: every order of the steps comes to an end with all commands waited for, and
  with the last one's output that of the commands applied one after the other.
-/

namespace Shell

open Descriptors Transition Filters

variable {σ β : Type*}

/-! ## The model -/

/-- Some process has `o` open. -/
def State.IsOpen (s : State) (o : File) : Prop :=
  Holds s.table o ∨ ∃ child ∈ s.children, Holds child.table o

instance (s : State) (o : File) : Decidable (s.IsOpen o) :=
  inferInstanceAs (Decidable (_ ∨ _))

/-- The shell, and what its children have read and written. -/
structure Pipeline (σ β : Type*) where
  shell : State
  /-- Where the program of each command is. -/
  progs : ℕ → σ
  /-- What is in the pipe of each round. -/
  pipes : ℕ → List β
  /-- What the shell's standard input has still to give. -/
  input : List β
  /-- What the commands have written to the shell's standard output. -/
  output : List β

/-- Before `RunCmd`. -/
def Pipeline.init (line : CommandLine) (start : Command → σ) (input : List β) : Pipeline σ β where
  shell := Shell.init line
  -- behind the last command nothing looks at it
  progs j := start (line.cmds.getD j ⟨[]⟩)
  pipes _ := []
  input := input
  output := []

/-- The program of the command `j` goes on with `q`. -/
def Pipeline.setProg (v : Pipeline σ β) (j : ℕ) (q : σ) : Pipeline σ β :=
  { v with progs := Function.update v.progs j q }

/-- A `read` of one byte, `none` at the end of the file. No command has another file at
descriptor 0. -/
def Pipeline.read (v : Pipeline σ β) : File → Option (Option β × Pipeline σ β)
  | .stdin =>
      match v.input with
      | [] => some (none, v)
      | b :: rest => some (some b, { v with input := rest })
  | .readEnd k =>
      match v.pipes k with
      | [] => if v.shell.IsOpen (.writeEnd k) then none else some (none, v)
      | b :: rest => some (some b, { v with pipes := Function.update v.pipes k rest })
  | .stdout | .stderr | .writeEnd _ => none

/-- One step of the shell or of one of its children in front of `execvp`, or of a command. -/
inductive Pipeline.Action where
  | shell (a : Shell.Action)
  | command (j : ℕ)

/-- The end of a command. -/
def Action.isFinish : Action → Bool
  | .child _ (.finish _) => true
  | .pipe | .fork | .call | .reap _ | .child _ .call | .child _ .exec => false

section Steps

variable (line : CommandLine) (next : σ → Next σ β) (capacity : ℕ)

/-- The child `j` ends. -/
def Pipeline.finish (v : Pipeline σ β) (j : ℕ) (status : Status) : Option (Pipeline σ β) :=
  (Shell.step line v.shell (.child j (.finish status))).map fun s => { v with shell := s }

/-- A `write` of one byte by the child `j`, behind which its program goes on with `v'`. -/
def Pipeline.write (v v' : Pipeline σ β) (j : ℕ) (b : β) : File → Option (Pipeline σ β)
  | .stdout => some { v' with output := v'.output ++ [b] }
  | .writeEnd k =>
      -- `SIGPIPE`
      if ¬ v.shell.IsOpen (.readEnd k) then v.finish line j .signalled
      else if (v'.pipes k).length < capacity then
        some { v' with pipes := Function.update v'.pipes k (v'.pipes k ++ [b]) }
      else none
  | .stdin | .stderr | .readEnd _ => none

/-- The next step of `p`, the program of the child `j`. -/
def Pipeline.commandStep (v : Pipeline σ β) (j : ℕ) (child : Child) (p : σ) :
    Option (Pipeline σ β) :=
  match next p with
  | .read k =>
      ((get child.table 0).bind v.read).map fun x => x.2.setProg child.command (k x.1)
  | .write b q =>
      (get child.table 1).bind (v.write line capacity (v.setProg child.command q) j b)
  | .exit code => v.finish line j (.exited code)

/-- The next state; `none` if the action is not enabled. -/
def Pipeline.step (v : Pipeline σ β) : Pipeline.Action → Option (Pipeline σ β)
  | .shell a =>
      if a.isFinish then none
      else (Shell.step line v.shell a).map fun s => { v with shell := s }
  | .command j =>
      match v.shell.children[j]? with
      | some child =>
          if child.pc = .executing then
            v.commandStep line next capacity j child (v.progs child.command)
          else none
      | none => none

end Steps

/-! ## Who has the ends open -/

variable {n j : ℕ} {s s' : State} {t : Table File} {o : File} {child : Child}

/-- A call opens nothing that was not open. -/
theorem holds_of_apply {call : Call} (h : Holds (call.apply t) o) : Holds t o := by
  obtain ⟨fd, hfd⟩ := holds_iff.mp h
  cases call with
  | dup2 old new =>
    cases hold : get t old with
    | none => exact holds_iff.mpr ⟨fd, by simpa [Call.apply, Descriptors.dup2, hold] using hfd⟩
    | some o' =>
      rw [Call.apply, get_dup2 hold] at hfd
      split at hfd
      · exact holds_iff.mpr ⟨old, hold.trans hfd⟩
      · exact holds_iff.mpr ⟨fd, hfd⟩
  | close old =>
    rw [Call.apply, get_close] at hfd
    split at hfd
    · cases hfd
    · exact holds_iff.mpr ⟨fd, hfd⟩

theorem holds_of_foldl_apply {calls : List Call} (h : Holds (calls.foldl Call.apply t) o) :
    Holds t o := by
  induction calls generalizing t with
  | nil => exact h
  | cons call calls ih => exact holds_of_apply (ih h)

/-- A child that has not ended has open what its command will have. -/
theorem WiringOk.holds_of_wired (h : WiringOk n s) (hj : s.children[j]? = some child)
    (hstatus : child.pc.status = none)
    (hwired : ∀ t, Wired n j t → Holds t o) : Holds child.table o := by
  have hok := h.children j child hj
  cases hpc : child.pc with
  | starting calls =>
    simp only [ChildOk, hpc] at hok
    exact holds_of_foldl_apply (hwired _ hok.2)
  | executing =>
    simp only [ChildOk, hpc] at hok
    exact hwired _ hok.2
  | ended status | reaped status => simp [hpc, ChildPc.status] at hstatus

theorem State.isOpen_of_child (hj : s.children[j]? = some child) (h : Holds child.table o) :
    s.IsOpen o :=
  .inr ⟨child, List.mem_of_getElem? hj, h⟩

/-- There are no more children than commands. -/
theorem WiringOk.length_le (h : WiringOk n s) : s.children.length ≤ n := by
  have hparent := h.parent
  cases hpc : s.pc with
  | piping | forking | closing calls =>
    rw [hpc] at hparent
    have hi := hparent.1
    have hlength := hparent.2.1
    omega
  | reaping | done =>
    rw [hpc] at hparent
    exact hparent.1.le

/-- Until the next child is there, the parent keeps the end for reading for it. -/
theorem WiringOk.parent_holds (h : WiringOk n s) (hlength : s.children.length = j + 1)
    (hj : j + 1 < n) : Holds s.table (.readEnd j) := by
  have hparent := h.parent
  cases hpc : s.pc with
  | piping =>
    rw [hpc] at hparent
    obtain ⟨-, hchildren, htable⟩ := hparent
    have hi : s.i = j + 1 := by omega
    cases hprev : s.prevPipeRead with
    | none =>
      have := htable.prev_iff.mp hprev
      omega
    | some fd => exact holds_iff.mpr ⟨fd, by rw [htable.files, if_pos hprev, hi]; simp⟩
  | forking =>
    rw [hpc] at hparent
    obtain ⟨-, hchildren, htable⟩ := hparent
    have hi : s.i = j + 1 := by omega
    cases hprev : s.prevPipeRead with
    | none =>
      have := htable.prev_iff.mp hprev
      omega
    | some fd =>
      obtain ⟨-, hread, hwrite⟩ := htable.le_prev fd hprev
      refine holds_iff.mpr ⟨fd, ?_⟩
      rw [htable.files, if_neg hwrite, if_neg hread, if_pos hprev, hi]
      simp
  | closing calls =>
    rw [hpc] at hparent
    obtain ⟨-, hchildren, prev, before, t, htable, hsplit, ht, -⟩ := hparent
    have hi : s.i = j := by omega
    -- what the parent has closed by then is among what it closes in the whole round
    have hafter : get ((parentCalls prev s.pipeFd (¬ s.i < n - 1)).foldl Call.apply t)
        s.pipeFd.1 = some (.readEnd j) := by
      have hprev : prev ≠ some s.pipeFd.1 := fun hp => (htable.le_prev _ hp).2.1 rfl
      rw [get_parentCalls, if_neg (fun hboth => htable.ne hboth.2), if_neg hprev, htable.files,
        if_neg htable.ne, if_pos rfl, hi]
    rw [hsplit, List.foldl_append, ← ht] at hafter
    exact holds_of_foldl_apply (holds_iff.mpr ⟨_, hafter⟩)
  | reaping | done =>
    rw [hpc] at hparent
    have := hparent.1
    omega

/-- As long as the command in front has not ended, its pipe can still be written. -/
theorem WiringOk.isOpen_writeEnd (h : WiringOk n s) (hj : j < n - 1)
    (hlt : j < s.children.length) (hstatus : s.statusAt j = none) :
    s.IsOpen (.writeEnd j) := by
  obtain ⟨child, hchild⟩ : ∃ child, s.children[j]? = some child :=
    ⟨_, List.getElem?_eq_getElem hlt⟩
  rw [State.statusAt, hchild, Option.bind_some] at hstatus
  refine State.isOpen_of_child hchild (h.holds_of_wired hchild hstatus fun t hwired => ?_)
  exact holds_iff.mpr ⟨1, by rw [hwired.stdout, if_pos hj]⟩

/-- As long as the command behind has not ended, its pipe can still be read. -/
theorem WiringOk.isOpen_readEnd (h : WiringOk n s) (hj : j + 1 < n)
    (hlt : j < s.children.length) (hstatus : s.statusAt (j + 1) = none) :
    s.IsOpen (.readEnd j) := by
  cases hbehind : s.children[j + 1]? with
  | none =>
    have hle := List.getElem?_eq_none_iff.mp hbehind
    exact .inl (h.parent_holds (by omega) hj)
  | some child =>
    rw [State.statusAt, hbehind, Option.bind_some] at hstatus
    refine State.isOpen_of_child hbehind (h.holds_of_wired hbehind hstatus fun t hwired => ?_)
    exact holds_iff.mpr ⟨0, by rw [hwired.stdin, if_neg (Nat.succ_ne_zero j)]; simp⟩

/-! ## The chain of filters -/

/-- The pipeline as a chain: a command that has not started yet is a filter that has not moved. -/
def Pipeline.chain (n : ℕ) (v : Pipeline σ β) : Chain σ β where
  filters j := if (v.shell.statusAt j).isSome then none else some (v.progs j)
  channels k := if k = 0 then v.input else if k = n then v.output else v.pipes (k - 1)

section Refinement

variable {v v' : Pipeline σ β} {next : σ → Next σ β} {line : CommandLine} {capacity : ℕ}

theorem chain_setProg (hstatus : v.shell.statusAt j = none) (q : σ) :
    (v.setProg j q).chain n =
      ⟨Function.update (v.chain n).filters j (some q), (v.chain n).channels⟩ := by
  simp only [Pipeline.chain, Pipeline.setProg, Chain.mk.injEq, and_true]
  funext i
  by_cases hi : i = j
  · simp [hi, hstatus]
  · simp [hi]

theorem chain_input (data : List β) :
    ({ v with input := data } : Pipeline σ β).chain n =
      ⟨(v.chain n).filters, Function.update (v.chain n).channels 0 data⟩ := by
  simp only [Pipeline.chain, Chain.mk.injEq, true_and]
  funext k
  by_cases hk : k = 0 <;> simp [hk]

theorem chain_output (hn : 0 < n) (data : List β) :
    ({ v with output := data } : Pipeline σ β).chain n =
      ⟨(v.chain n).filters, Function.update (v.chain n).channels n data⟩ := by
  simp only [Pipeline.chain, Chain.mk.injEq, true_and]
  funext k
  by_cases hk : k = n
  · simp [hk, show n ≠ 0 by omega]
  · simp [hk]

theorem chain_pipe (hj : j + 1 < n) (data : List β) :
    ({ v with pipes := Function.update v.pipes j data } : Pipeline σ β).chain n =
      ⟨(v.chain n).filters, Function.update (v.chain n).channels (j + 1) data⟩ := by
  simp only [Pipeline.chain, Chain.mk.injEq, true_and]
  funext k
  by_cases hk : k = j + 1
  · simp [hk, show j + 1 ≠ n by omega]
  · rw [Function.update_of_ne hk]
    by_cases hzero : k = 0
    · simp [hzero]
    · rw [Function.update_of_ne (by omega)]

/-- What else holds where a command runs. -/
structure Runs (n j : ℕ) (v : Pipeline σ β) (child : Child) : Prop where
  wiring : WiringOk n v.shell
  found : v.shell.children[j]? = some child
  executing : child.pc = .executing

theorem Runs.command (h : Runs n j v child) : child.command = j :=
  (h.wiring.children j child h.found).1

theorem Runs.lt_length (h : Runs n j v child) : j < v.shell.children.length :=
  (List.getElem?_eq_some_iff.mp h.found).1

theorem Runs.lt (h : Runs n j v child) : j < n :=
  h.lt_length.trans_le h.wiring.length_le

theorem Runs.statusAt (h : Runs n j v child) : v.shell.statusAt j = none := by
  rw [State.statusAt, h.found, Option.bind_some, h.executing, ChildPc.status]

theorem Runs.filter (h : Runs n j v child) : (v.chain n).filters j = some (v.progs j) := by
  simp [Pipeline.chain, h.statusAt]

theorem Runs.wired (h : Runs n j v child) : Wired n j child.table :=
  h.wiring.of_executing h.found h.executing

/-- A command at its own file for reading moves as its filter does. -/
theorem Runs.read {k : Option β → σ} {b : Option β} {u : Pipeline σ β} (h : Runs n j v child)
    (hnext : next (v.progs j) = .read k) (hread : (get child.table 0).bind v.read = some (b, u)) :
    Move next n (v.chain n) ((u.setProg j (k b)).chain n) ∧ u.shell = v.shell := by
  rw [h.wired.stdin, Option.bind_some] at hread
  by_cases hzero : j = 0
  · subst hzero
    rw [if_pos rfl, Pipeline.read] at hread
    split at hread
    next hinput =>
      obtain ⟨rfl, rfl⟩ := Prod.mk.inj (Option.some.inj hread)
      refine ⟨?_, rfl⟩
      rw [chain_setProg h.statusAt]
      exact .eof h.lt h.filter hnext (by simpa [Pipeline.chain] using hinput) (by simp)
    next b' rest hinput =>
      obtain ⟨rfl, rfl⟩ := Prod.mk.inj (Option.some.inj hread)
      refine ⟨?_, rfl⟩
      rw [chain_setProg (by exact h.statusAt), chain_input (v := v) rest]
      exact .read h.lt h.filter hnext (by simpa [Pipeline.chain] using hinput)
  · obtain ⟨i, rfl⟩ := Nat.exists_eq_succ_of_ne_zero hzero
    have hlt := h.lt
    have hchannel : (v.chain n).channels (i + 1) = v.pipes i := by
      simp [Pipeline.chain, show i + 1 ≠ n by omega]
    rw [if_neg hzero, Nat.succ_eq_add_one, Nat.add_sub_cancel, Pipeline.read] at hread
    split at hread
    next hpipe =>
      split at hread
      next => cases hread
      next hclosed =>
        obtain ⟨rfl, rfl⟩ := Prod.mk.inj (Option.some.inj hread)
        refine ⟨?_, rfl⟩
        rw [chain_setProg h.statusAt]
        refine .eof hlt h.filter hnext (hchannel.trans hpipe) fun i' hi' => ?_
        -- the command in front would have its end open
        obtain rfl : i = i' := Nat.succ.inj hi'
        have hended : v.shell.statusAt i ≠ none := fun hstatus =>
          hclosed (h.wiring.isOpen_writeEnd (by omega) ((Nat.lt_succ_self i).trans h.lt_length)
            hstatus)
        simp [Pipeline.chain, Option.isSome_iff_ne_none.mpr hended]
    next b' rest hpipe =>
      obtain ⟨rfl, rfl⟩ := Prod.mk.inj (Option.some.inj hread)
      refine ⟨?_, rfl⟩
      rw [chain_setProg (by exact h.statusAt), chain_pipe (v := v) hlt rest]
      exact .read hlt h.filter hnext (hchannel.trans hpipe)

/-- The end of a command. -/
theorem Runs.finish {status : Status} (h : Runs n j v child)
    (hfinish : v.finish line j status = some v') :
    v'.chain n = ⟨Function.update (v.chain n).filters j none, (v.chain n).channels⟩ ∧
      Shell.step line v.shell (.child j (.finish status)) = some v'.shell := by
  obtain ⟨s, hs, rfl⟩ := Option.map_eq_some_iff.mp hfinish
  refine ⟨?_, hs⟩
  obtain rfl : v.shell.setChild j { child with table := [], pc := .ended status } = s := by
    simpa [Shell.step, h.found, childStep, h.executing] using hs
  simp only [Pipeline.chain, Chain.mk.injEq, and_true]
  funext i
  rw [statusAt_setChild h.found]
  by_cases hi : i = j
  · simp [hi, ChildPc.status]
  · simp [hi, Ne.symm hi]

/-- A command at its own file for writing moves as its filter does. -/
theorem Runs.write {b : β} {q : σ} (h : Runs n j v child) (hnext : next (v.progs j) = .write b q)
    (hwrite : (get child.table 1).bind (v.write line capacity (v.setProg j q) j b) = some v') :
    Move next n (v.chain n) (v'.chain n) ∧
      (v'.shell = v.shell ∨
        ∃ status, Shell.step line v.shell (.child j (.finish status)) = some v'.shell) := by
  have hlt := h.lt
  rw [h.wired.stdout, Option.bind_some] at hwrite
  by_cases hlast : j < n - 1
  · have hchannel : (v.chain n).channels (j + 1) = (v.setProg j q).pipes j := by
      simp [Pipeline.chain, Pipeline.setProg, show j + 1 ≠ n by omega]
    rw [if_pos hlast, Pipeline.write] at hwrite
    split at hwrite
    next hclosed =>
      obtain ⟨hchain, hshell⟩ := h.finish hwrite
      rw [hchain]
      refine ⟨.kill (by omega) h.filter ?_, .inr ⟨_, hshell⟩⟩
      -- the command behind would have its end open, or the parent would keep it
      have hended : v.shell.statusAt (j + 1) ≠ none := fun hstatus =>
        hclosed (h.wiring.isOpen_readEnd (by omega) h.lt_length hstatus)
      simp [Pipeline.chain, Option.isSome_iff_ne_none.mpr hended]
    next =>
      split at hwrite
      next =>
        obtain rfl := Option.some.inj hwrite
        refine ⟨?_, .inl rfl⟩
        rw [chain_pipe (v := v.setProg j q) (by omega), chain_setProg h.statusAt, ← hchannel]
        exact .write hlt h.filter hnext
      next => cases hwrite
  · rw [if_neg hlast, Pipeline.write] at hwrite
    obtain rfl := Option.some.inj hwrite
    refine ⟨?_, .inl rfl⟩
    have hchannel : (v.chain n).channels (j + 1) = (v.setProg j q).output := by
      simp [Pipeline.chain, Pipeline.setProg, show j + 1 = n by omega, show n ≠ 0 by omega]
    rw [chain_output (v := v.setProg j q) (by omega), chain_setProg h.statusAt, ← hchannel]
    have hn : n = j + 1 := by omega
    have hmove : Move next n (v.chain n) _ := .write hlt h.filter hnext
    rwa [← hn] at hmove ⊢

/-- What a step of a command does to the shell and to the chain. -/
theorem Runs.move (h : Runs n j v child)
    (hstep : v.commandStep line next capacity j child (v.progs j) = some v') :
    Move next n (v.chain n) (v'.chain n) ∧
      (v'.shell = v.shell ∨
        ∃ status, Shell.step line v.shell (.child j (.finish status)) = some v'.shell) := by
  rw [Pipeline.commandStep, h.command] at hstep
  split at hstep
  next k hnext =>
    obtain ⟨⟨b, u⟩, hread, rfl⟩ := Option.map_eq_some_iff.mp hstep
    obtain ⟨hmove, hshell⟩ := h.read hnext hread
    exact ⟨hmove, .inl hshell⟩
  next b q hnext => exact h.write hnext hstep
  next code hnext =>
    obtain ⟨hchain, hshell⟩ := h.finish hstep
    rw [hchain]
    exact ⟨.exit h.lt h.filter hnext, .inr ⟨_, hshell⟩⟩

/-! ## Runs -/

/-- What a step can do. -/
theorem Pipeline.step_cases {a : Pipeline.Action} (h : v.step line next capacity a = some v') :
    (∃ b s, b.isFinish = false ∧ Shell.step line v.shell b = some s ∧ v' = { v with shell := s }) ∨
      ∃ j child, a = .command j ∧ v.shell.children[j]? = some child ∧ child.pc = .executing ∧
        v.commandStep line next capacity j child (v.progs child.command) = some v' := by
  cases a with
  | shell b =>
    rw [Pipeline.step] at h
    split at h
    next => cases h
    next hfinish =>
      obtain ⟨s, hs, rfl⟩ := Option.map_eq_some_iff.mp h
      exact .inl ⟨b, s, by simpa using hfinish, hs, rfl⟩
  | command j =>
    simp only [Pipeline.step] at h
    split at h
    next child hj =>
      split at h
      next hpc => exact .inr ⟨j, child, rfl, hj, hpc, h⟩
      next => cases h
    next => cases h

theorem Action.statusFor_of_not_finish {a : Action} (h : a.isFinish = false) (j : ℕ) :
    a.statusFor j = none := by
  cases a with
  | pipe | fork | call | reap k => rfl
  | child k b =>
    cases b with
    | call | exec => rfl
    | finish status => cases h

variable {tr : List (State × Action)} {result : List β} {m : ℕ}

/-- As long as no command moves, neither does a filter. -/
theorem chain_of_shell {a : Action} (hrun : Run (Shell.step line) (Shell.init line) tr v.shell)
    (ha : a.isFinish = false) (hstep : Shell.step line v.shell a = some s) :
    ({ v with shell := s } : Pipeline σ β).chain n = v.chain n := by
  have hstatus : ∀ j, s.statusAt j = v.shell.statusAt j := by
    intro j
    rw [(reapOk_of_run (hrun.snoc hstep)).status, (reapOk_of_run hrun).status, statusOf_snoc,
      Action.statusFor_of_not_finish ha, Option.or_none]
  simp [Pipeline.chain, hstatus]

/-- The state is that of a run of the shell, its chain has `result` still to deliver, and at most
`m` steps are left. -/
structure Carries (line : CommandLine) (next : σ → Next σ β) (result : List β) (m : ℕ)
    (v : Pipeline σ β) : Prop where
  run : ∃ tr, Run (Shell.step line) (Shell.init line) tr v.shell
  owes : ∃ owed left, Owes next line.cmdCount (v.chain line.cmdCount) owed left ∧
    (v.chain line.cmdCount).channels line.cmdCount ++ owed line.cmdCount = result ∧
    v.shell.work line.cmdCount + ∑ j ∈ Finset.range line.cmdCount, left j ≤ m

theorem Carries.wiring (h : Carries line next result m v) : WiringOk line.cmdCount v.shell := by
  obtain ⟨tr, hrun⟩ := h.run
  exact wiringOk_of_run hrun

/-- Every step leaves the same to deliver, and less to do. -/
theorem Carries.step {a : Pipeline.Action} (h : Carries line next result m v)
    (hstep : v.step line next capacity a = some v') : ∃ m' < m, Carries line next result m' v' := by
  obtain ⟨tr, hrun⟩ := h.run
  obtain ⟨owed, left, howes, hresult, hle⟩ := h.owes
  rcases Pipeline.step_cases hstep with ⟨b, s, hb, hs, rfl⟩ | ⟨j, child, -, hj, hpc, hcommand⟩
  · have hwork := work_step hs
    refine ⟨m - 1, by omega, ⟨_, hrun.snoc hs⟩, owed, left, ?_⟩
    -- a step of the shell leaves the filters alone
    rw [chain_of_shell hrun hb hs]
    refine ⟨howes, hresult, ?_⟩
    change s.work line.cmdCount + _ ≤ _
    omega
  -- a step of a command is one of its filter, and the shell may take note of its end
  · have hruns : Runs line.cmdCount j v child := ⟨h.wiring, hj, hpc⟩
    rw [hruns.command] at hcommand
    obtain ⟨hmove, hshell⟩ := hruns.move hcommand
    obtain ⟨owed', left', howes', hresult', hless⟩ := howes.move hmove
    have hwork : v'.shell.work line.cmdCount ≤ v.shell.work line.cmdCount := by
      rcases hshell with hsame | ⟨status, hs⟩
      · rw [hsame]
      · exact (work_step hs).le
    refine ⟨m - 1, by omega, ?_, owed', left', howes', hresult'.trans hresult, by omega⟩
    rcases hshell with hsame | ⟨status, hs⟩
    · exact ⟨tr, hsame ▸ hrun⟩
    · exact ⟨_, hrun.snoc hs⟩

/-! ## Progress -/

/-- A child that has been waited for is among those that the run has waited for. -/
theorem mem_waitedFor_of_reaped (hrun : Run (Shell.step line) (Shell.init line) tr s)
    {status : Status} (hj : s.children[j]? = some child) (hpc : child.pc = .reaped status) :
    j ∈ waitedFor tr := by
  induction hrun generalizing j child status with
  | nil =>
    have hnone : (Shell.init line).children = [] := by
      rw [Shell.init]
      split <;> rfl
    simp [hnone] at hj
  | @snoc tr t u a hrun hstep ih =>
    rw [waitedFor_snoc, List.mem_append]
    rcases step_cases hstep with ⟨-, -, rfl⟩ | ⟨-, -, rfl⟩ | ⟨call, calls, -, -, rfl⟩ |
      ⟨-, -, rfl⟩ | ⟨k, other, status', rfl, -, hk, -, rfl⟩ | ⟨k, b, other, other', -, hk, hb, rfl⟩
    · exact .inl (ih hj hpc)
    · rw [State.fork, List.getElem?_append] at hj
      split at hj
      next => exact .inl (ih hj hpc)
      next =>
        rw [List.getElem?_singleton] at hj
        split at hj
        next =>
          rw [← Option.some.inj hj] at hpc
          cases hpc
        next => cases hj
    · exact .inl (ih hj hpc)
    · rcases nextCommand_cases line.cmdCount t with heq | ⟨-, heq⟩ | ⟨-, heq⟩ <;>
      · rw [heq] at hj
        exact .inl (ih hj hpc)
    · by_cases heq : k = j
      · exact .inr (by simp [Action.waited, heq])
      · rw [State.reap, State.setChild, List.getElem?_set_ne heq] at hj
        exact .inl (ih hj hpc)
    · by_cases heq : k = j
      · subst heq
        obtain ⟨hlt, -⟩ := List.getElem?_eq_some_iff.mp hk
        rw [State.setChild, List.getElem?_set_self hlt] at hj
        -- no step of a child ends there
        have hchild := Option.some.inj hj
        rcases childStep_cases hb with ⟨_, _, -, -, rfl⟩ | ⟨-, -, rfl⟩ | ⟨_, -, -, rfl⟩
        · rw [← hchild] at hpc
          cases hpc
        · rw [← hchild] at hpc
          cases hpc
        · rw [← hchild] at hpc
          cases hpc
      · rw [State.setChild, List.getElem?_set_ne heq] at hj
        exact .inl (ih hj hpc)

/-- In the second loop, a child has not been waited for. -/
theorem exists_not_reaped (hrun : Run (Shell.step line) (Shell.init line) tr s)
    (hpc : s.pc = .reaping) :
    ∃ (j : ℕ) (child : Child), s.children[j]? = some child ∧
      ∀ status, child.pc ≠ .reaped status := by
  by_contra hall
  push Not at hall
  have h := reapOk_of_run hrun
  have hcount : s.children.length = line.cmdCount := by
    have hparent := (wiringOk_of_run hrun).parent
    rw [hpc] at hparent
    exact hparent.1
  have hlength : (waitedFor tr).length = s.i := by
    simpa [hpc, ParentPc.waitedCount] using h.length
  -- more children than have been waited for would have been waited for
  have hsub : List.range line.cmdCount ⊆ waitedFor tr := by
    intro j hj
    rw [List.mem_range, ← hcount] at hj
    obtain ⟨status, hreaped⟩ := hall j _ (List.getElem?_eq_getElem hj)
    exact mem_waitedFor_of_reaped hrun (List.getElem?_eq_getElem hj) hreaped
  have hle := (List.nodup_range.subperm hsub).length_le
  have hlt := h.lt hpc
  rw [List.length_range] at hle
  omega

/-- Once all commands execute, only the child `j` has `o` open, so that nobody has when it has
ended. -/
theorem WiringOk.not_isOpen (h : WiringOk n s) (hstatus : s.statusAt j ≠ none)
    (honly : OnlyInChild s o j) (hparent : ¬ Holds s.table o) : ¬ s.IsOpen o := by
  rintro (hholds | ⟨child, hmem, hholds⟩)
  · exact hparent hholds
  · obtain ⟨k, hk⟩ := List.mem_iff_getElem?.mp hmem
    obtain rfl := honly k child hk hholds
    have hok := h.children k child hk
    rw [State.statusAt, hk, Option.bind_some] at hstatus
    cases hpc : child.pc with
    | starting calls | executing => simp [hpc, ChildPc.status] at hstatus
    | ended status | reaped status =>
      simp only [ChildOk, hpc] at hok
      simp [hok.2, Holds] at hholds

/-- Where the shell cannot go on, a command can if its filter can. -/
theorem Runs.step_ne_none (h : Runs n j v child) (hall : AllExecuted n v.shell)
    (hparent : v.shell.pc = .reaping ∨ v.shell.pc = .done)
    (hmove : CanMove next n capacity (v.chain n) j) :
    v.commandStep line next capacity j child (v.progs j) ≠ none := by
  have hlt := h.lt
  have hapart := h.wiring.endsApart hall
  -- a command without a filter has ended
  have hended : ∀ i, (v.chain n).filters i = none → v.shell.statusAt i ≠ none := by
    intro i hi hstatus
    simp [Pipeline.chain, hstatus] at hi
  have hfinish : ∀ status, v.finish line j status ≠ none := by
    intro status
    simp [Pipeline.finish, Shell.step, h.found, childStep, h.executing]
  obtain ⟨p, hp, hcan⟩ := hmove
  obtain rfl : v.progs j = p := Option.some.inj (h.filter.symm.trans hp)
  rw [Pipeline.commandStep]
  cases hnext : next (v.progs j) with
  | read k =>
    simp only [hnext] at hcan
    dsimp only
    rw [h.wired.stdin, Option.bind_some]
    -- the first command reads the standard input, the others a pipe
    by_cases hzero : j = 0
    · rw [if_pos hzero, Pipeline.read]
      cases v.input <;> simp
    · obtain ⟨i, rfl⟩ := Nat.exists_eq_succ_of_ne_zero hzero
      rw [if_neg hzero, Nat.succ_eq_add_one, Nat.add_sub_cancel, Pipeline.read]
      cases hpipe : v.pipes i with
      | nil =>
        -- on an empty pipe the read returns, for the command in front has ended
        have hfront : (v.chain n).filters i = none := by
          rcases hcan with hdata | hfront
          · simp [Pipeline.chain, hpipe, show i + 1 ≠ n by omega] at hdata
          · exact hfront i rfl
        obtain ⟨⟨honly, hno⟩, -⟩ := hapart i (by omega)
        simp [h.wiring.not_isOpen (hended i hfront) honly hno]
      | cons b rest => simp
  | write b q =>
    simp only [hnext] at hcan
    dsimp only
    rw [h.wired.stdout, Option.bind_some]
    by_cases hlast : j < n - 1
    · rw [if_pos hlast, Pipeline.write]
      split
      next => exact hfinish _
      next hopen =>
        -- with a reader the pipe has room, so that the write does not block
        have hroom : (v.pipes j).length < capacity := by
          rcases hcan with heq | hroom | hbehind
          · omega
          · simpa [Pipeline.chain, show j + 1 ≠ n by omega] using hroom
          · obtain ⟨-, honly, hno⟩ := hapart j hlast
            have hreadEnd : ¬ Holds v.shell.table (.readEnd j) := by
              intro hholds
              obtain ⟨fd, hfd⟩ := holds_iff.mp hholds
              have hclosing := (hno fd hfd).2
              rcases hparent with hpc | hpc <;> simp [hpc] at hclosing
            exact absurd (h.wiring.not_isOpen (hended _ hbehind) honly hreadEnd) hopen
        have hsame : ((v.setProg child.command q).pipes j).length < capacity := hroom
        simp [hsame]
    · simp [if_neg hlast, Pipeline.write]
  | exit code => exact hfinish _

/-- Where no step is left, everything is done. -/
theorem Carries.of_stuck (hcapacity : 0 < capacity) (hcmds : 0 < line.cmdCount)
    (h : Carries line next result m v) (hstuck : ∀ a, v.step line next capacity a = none) :
    v.shell.pc = .done ∧ v.output = result := by
  obtain ⟨tr, hrun⟩ := h.run
  obtain ⟨owed, left, howes, hresult, -⟩ := h.owes
  have hno : ∀ a, a.isFinish = false → Shell.step line v.shell a = none := by
    intro a ha
    simpa [Pipeline.step, ha] using hstuck (.shell a)
  -- the shell and the children in front of `execvp` have nothing left to do
  have hall : AllExecuted line.cmdCount v.shell := by
    refine allExecuted_of_stuck h.wiring fun a ha => ?_
    cases a with
    | pipe | fork | call | reap j => exact absurd (hno _ rfl) ha
    | child j b =>
      cases b with
      | call | exec => exact absurd (hno _ rfl) ha
      | finish status => exact ⟨j, status, rfl⟩
  have hparent : v.shell.pc = .reaping ∨ v.shell.pc = .done := by
    cases hpc : v.shell.pc with
    | piping => simpa [Shell.step, hpc] using hno .pipe rfl
    | forking => simpa [Shell.step, hpc] using hno .fork rfl
    | closing calls =>
      have := hno .call rfl
      cases calls <;> simp [Shell.step, hpc] at this
    | reaping => exact .inl rfl
    | done => exact .inr rfl
  -- no command can go on, so that its filter cannot either
  have hmoves : ∀ j < line.cmdCount, ¬ CanMove next line.cmdCount capacity
      (v.chain line.cmdCount) j := by
    intro j hj hmove
    have hlt : j < v.shell.children.length := by rwa [hall.1]
    obtain ⟨p, hp, -⟩ := id hmove
    obtain ⟨child, hchild⟩ : ∃ child, v.shell.children[j]? = some child :=
      ⟨_, List.getElem?_eq_getElem hlt⟩
    have hexecuted := hall.2 child (List.mem_of_getElem? hchild)
    cases hpc : child.pc with
    | starting calls => simp [hpc, ChildPc.hasExecuted] at hexecuted
    | executing =>
      have hruns : Runs line.cmdCount j v child := ⟨h.wiring, hchild, hpc⟩
      have := hstuck (.command j)
      simp only [Pipeline.step, hchild, hpc, if_true, hruns.command] at this
      exact hruns.step_ne_none hall hparent hmove this
    | ended status | reaped status =>
      simp [Pipeline.chain, State.statusAt, hchild, hpc, ChildPc.status] at hp
  have hended : ∀ j < line.cmdCount, (v.chain line.cmdCount).filters j = none :=
    fun j hj => ended_of_stuck hcapacity hmoves hj
  refine ⟨hparent.resolve_left fun hreaping => ?_, ?_⟩
  · -- a child that has not been waited for has ended, so that `waitpid` returns
    obtain ⟨j, child, hchild, hreaped⟩ := exists_not_reaped hrun hreaping
    have hlt : j < line.cmdCount := by
      rw [← hall.1]
      exact (List.getElem?_eq_some_iff.mp hchild).1
    have hfilter := hended j hlt
    cases hpc : child.pc with
    | starting calls | executing =>
      simp [Pipeline.chain, State.statusAt, hchild, hpc, ChildPc.status] at hfilter
    | ended status => simpa [Shell.step, hreaping, hchild, hpc] using hno (.reap j) rfl
    | reaped status => exact hreaped status hpc
  -- with all filters at their end nothing is owed to the output
  · rw [howes.eq_nil hended, List.append_nil] at hresult
    simpa [Pipeline.chain, show line.cmdCount ≠ 0 by omega] using hresult

/-! ## The pipeline -/

/-- What the first `k` commands make of the input, one after the other. -/
def CommandLine.stream (compute : Command → List β → List β) (line : CommandLine)
    (input : List β) (k : ℕ) : List β :=
  (line.cmds.take k).foldl (fun data cmd => compute cmd data) input

variable {start : Command → σ} {compute : Command → List β → List β}

theorem stream_succ (hj : j < line.cmdCount) (input : List β) :
    line.stream compute input (j + 1) =
      compute (line.cmds.getD j ⟨[]⟩) (line.stream compute input j) := by
  rw [CommandLine.cmdCount] at hj
  rw [CommandLine.stream, CommandLine.stream, List.take_succ_eq_append_getElem hj,
    List.foldl_append, List.getD_eq_getElem _ _ hj]
  rfl

theorem stream_cmdCount (input : List β) :
    line.stream compute input line.cmdCount =
      line.cmds.foldl (fun data cmd => compute cmd data) input := by
  rw [CommandLine.stream, CommandLine.cmdCount, List.take_length]

/-- Before `RunCmd`, what the commands compute one after the other is still to be delivered. -/
theorem carries_init (hcmds : 0 < line.cmdCount)
    (hcompute : ∀ cmd ∈ line.cmds, ∀ input, ∃ steps,
      Computes next (start cmd) input (compute cmd input) steps) (input : List β) :
    ∃ m, Carries line next (line.cmds.foldl (fun data cmd => compute cmd data) input) m
      (Pipeline.init line start input) := by
  have hruns : ∀ j, ∃ steps, j < line.cmdCount →
      Computes next (start (line.cmds.getD j ⟨[]⟩)) (line.stream compute input j)
        (line.stream compute input (j + 1)) steps := by
    intro j
    by_cases hj : j < line.cmdCount
    · have hmem : line.cmds.getD j ⟨[]⟩ ∈ line.cmds := by
        rw [List.getD_eq_getElem _ _ hj]
        exact List.getElem_mem hj
      obtain ⟨steps, hsteps⟩ := hcompute _ hmem (line.stream compute input j)
      exact ⟨steps, fun _ => stream_succ hj input ▸ hsteps⟩
    · exact ⟨0, fun hlt => absurd hlt hj⟩
  -- each command has its own number of steps
  choose left hleft using hruns
  have hstatus : ∀ j, (Shell.init line).statusAt j = none := by
    intro j
    rw [(reapOk_of_run Run.nil).status]
    rfl
  have howes : Owes next line.cmdCount
      ((Pipeline.init line start input).chain line.cmdCount) _ left :=
    owes_init (line.stream compute input) rfl
      (fun k _ => by simp [Pipeline.chain, Pipeline.init])
      fun j hj => ⟨_, by simp [Pipeline.chain, Pipeline.init, hstatus j], hleft j hj⟩
  refine ⟨_, ⟨[], Run.nil⟩, _, left, howes, ?_, le_rfl⟩
  have hne : line.cmdCount ≠ 0 := by omega
  simp [Pipeline.chain, Pipeline.init, hne, stream_cmdCount]

/-- However the steps of the shell and of the commands are interleaved, and however small the
pipes are, every run comes to an end with all commands waited for, and the output is that of the
commands applied one after the other; before that it is a first part of it. -/
theorem composed_of_init (hcapacity : 0 < capacity) (hcmds : 0 < line.cmdCount)
    (hcompute : ∀ cmd ∈ line.cmds, ∀ input, ∃ steps,
      Computes next (start cmd) input (compute cmd input) steps) (input : List β) :
    (∃ m, EndsWithin (Pipeline.step line next capacity) m
      (fun v => v.shell.pc = .done ∧
        v.output = line.cmds.foldl (fun data cmd => compute cmd data) input)
      (Pipeline.init line start input)) ∧
    ∀ tr v, Run (Pipeline.step line next capacity) (Pipeline.init line start input) tr v →
      v.output <+: line.cmds.foldl (fun data cmd => compute cmd data) input := by
  obtain ⟨m, hm⟩ := carries_init hcmds hcompute input
  have hstep : ∀ m t a u, Carries line next
      (line.cmds.foldl (fun data cmd => compute cmd data) input) m t →
      Pipeline.step line next capacity t a = some u → ∃ m' < m, Carries line next _ m' u :=
    fun _ _ _ _ h hs => h.step hs
  refine ⟨⟨m, .of_bound hm hstep fun _ _ h => h.of_stuck hcapacity hcmds⟩, fun tr v hrun => ?_⟩
  obtain ⟨m', h, -⟩ := hrun.exists_bound hm hstep
  obtain ⟨owed, -, -, hresult, -⟩ := h.owes
  refine ⟨owed line.cmdCount, ?_⟩
  simpa [Pipeline.chain, show line.cmdCount ≠ 0 by omega] using hresult

end Refinement

/-- The programs of `twoCommands`: `a` writes each byte twice, and `b` writes the first byte. -/
inductive Filter where
  | doubling
  /-- It writes the byte, and then writes it again if that is still to be done. -/
  | writing (b : ℕ) (again : Bool)
  | first
  | last (b : ℕ)
  | exiting

/-- What the programs do. -/
def Filter.next : Filter → Next Filter ℕ
  | .doubling => .read fun b => b.elim .exiting fun b => .writing b true
  | .writing b again => .write b (if again then .writing b false else .doubling)
  | .first => .read fun b => b.elim .exiting .last
  | .last b => .write b .exiting
  | .exiting => .exit 0

/-- The program that a command executes. -/
def Filter.start (cmd : Command) : Filter :=
  if cmd = ⟨[['a']]⟩ then .doubling else .first

/-- What it computes. -/
def Filter.compute (cmd : Command) (input : List ℕ) : List ℕ :=
  if cmd = ⟨[['a']]⟩ then input.flatMap fun b => [b, b] else input.take 1

theorem Filter.computes_doubling (input : List ℕ) : ∃ steps,
    Computes Filter.next .doubling input (input.flatMap fun b => [b, b]) steps := by
  induction input with
  | nil => exact ⟨_, .eof rfl (.exit rfl)⟩
  | cons b input ih =>
    obtain ⟨steps, h⟩ := ih
    exact ⟨_, .read rfl (.write rfl (.write rfl h))⟩

theorem Filter.computes_first (input : List ℕ) : ∃ steps,
    Computes Filter.next .first input (input.take 1) steps := by
  cases input with
  | nil => exact ⟨_, .eof rfl (.exit rfl)⟩
  | cons b input => exact ⟨_, .read rfl (.write rfl (.exit rfl))⟩

/-- `a | b` in pipes for one byte: `a` never gets rid of all it writes. -/
theorem composed_two_commands :
    ∃ m, EndsWithin (Pipeline.step twoCommands Filter.next 1) m
      (fun v => v.shell.pc = .done ∧ v.output = [5])
      (Pipeline.init twoCommands Filter.start [5, 6, 7]) := by
  have hcompute : ∀ cmd ∈ twoCommands.cmds, ∀ input, ∃ steps,
      Computes Filter.next (Filter.start cmd) input (Filter.compute cmd input) steps := by
    intro cmd _ input
    by_cases hcmd : cmd = ⟨[['a']]⟩
    · simpa [Filter.start, Filter.compute, hcmd] using Filter.computes_doubling input
    · simpa [Filter.start, Filter.compute, hcmd] using Filter.computes_first input
  exact (composed_of_init Nat.one_pos (by decide) hcompute [5, 6, 7]).1

end Shell
