import PosixTasks.Shell.Split

/-!
# Which lines give commands that can be run

`ParseCommandLine` opens a command at every pipe and looks only at the last one for arguments. So
a leading or a doubled pipe leaves a command without arguments in front of it, whose name is
`NULL`, and an empty last command is dropped without a word. An argument is empty if `isspace`
skips all that is behind a pipe in a token, which it can do for the white space that does not
separate tokens.

## Main results

* `Follows.foldl`: where the parser leaves an empty command, the reference split has one too;
* `runnable_iff`: a line that is accepted gives commands that can be run, and misses none, exactly
  if no segment between its pipes is blank and no token has just white space behind its pipe.
-/

namespace Shell

open CString

/-- The name of the command is there and not empty, as `execvp` wants it. -/
def Command.Runnable (cmd : Command) : Prop :=
  ∃ name, cmd.name = some name ∧ name ≠ []

/-- Between the pipes of the line, in front of the first or behind the last one there are only
blanks. -/
def MissingCommand (input : Text) : Prop :=
  '|' ∈ input ∧ ∃ seg ∈ input.splitOn '|', ∀ c ∈ seg, isSeparator c = true

/-- Behind the first pipe of the token there is something, but only white space. -/
def BlankBehindPipe (tok : Text) : Prop :=
  '|' ∈ tok ∧ (tok.dropWhile (· ≠ '|')).tail ≠ [] ∧
    ∀ c ∈ (tok.dropWhile (· ≠ '|')).tail, isSpace c = true

/-! ## Commands without arguments -/

/-- Anything but a separator is in a token. -/
theorem tokens_cons_ne_nil {c : Char} (hc : isSeparator c = false) (rest : Text) :
    tokens (c :: rest) ≠ [] := by
  have hcut : ¬ isSeparator c = true := by simp [hc]
  rw [tokens, List.splitOnP_cons_eq_if_modifyHead, if_neg hcut]
  cases hsplit : rest.splitOnP isSeparator with
  | nil => exact absurd hsplit (List.splitOnP_ne_nil _ _)
  | cons first pieces => simp

/-- Blanks have no tokens, and no other text has none. -/
theorem tokens_eq_nil_iff (seg : Text) : tokens seg = [] ↔ ∀ c ∈ seg, isSeparator c = true := by
  induction seg with
  | nil => simp [tokens]
  | cons c seg ih =>
    cases hc : isSeparator c with
    | true => rw [tokens_cons hc, ih, List.forall_mem_cons, hc, eq_self, true_and]
    | false => simp [tokens_cons_ne_nil hc, hc]

/-- A command is missing where a segment of the reference split is empty. -/
theorem missingCommand_iff (input : Text) :
    MissingCommand input ↔ '|' ∈ input ∧ [] ∈ segments input := by
  simp only [MissingCommand, segments, List.mem_map, tokens_eq_nil_iff]

namespace Cut

@[simp]
theorem addOptional_closed (c : Cut) (arg : Option Text) :
    (c.addOptional arg).closed = c.closed := by
  cases arg <;> rfl

theorem addOptional_current (c : Cut) (arg : Option Text) :
    (c.addOptional arg).current = [] ↔ c.current = [] ∧ arg = none := by
  cases arg <;> simp [addOptional]

/-- A closed segment stays closed. -/
theorem closed_subset_feed (c : Cut) (tok : Text) : c.closed ⊆ (c.feed tok).closed := by
  have hfold : ∀ (ps : List Text) (c : Cut),
      c.closed ⊆ (ps.foldl (fun c q => c.next.add q) c).closed := by
    intro ps
    induction ps with
    | nil => exact fun c => List.Subset.refl _
    | cons q ps ih =>
      intro c
      refine List.Subset.trans ?_ (ih (c.next.add q))
      rw [add_closed]
      exact List.subset_append_left _ _
  unfold feed
  split
  next => exact List.Subset.refl _
  next p ps hsplit =>
    have hadd := hfold ps (c.add p)
    rwa [add_closed] at hadd

end Cut

/-- The parser, with the segments `c`, has left no empty command behind where the reference split,
with the segments `s`, has not. -/
structure Follows (c s : Cut) : Prop where
  closed : [] ∈ c.closed → [] ∈ s.closed
  current : c.current = [] → s.current = []

theorem Follows.take {c s : Cut} (h : Follows c s) (tok : Text) :
    Follows (c.take tok) (s.feed tok) := by
  by_cases hmem : '|' ∈ tok
  -- the token is cut at its first pipe
  · obtain ⟨b, r, rfl, hb⟩ := List.eq_append_cons_of_mem hmem
    rw [Cut.take, if_pos hmem, fixBeforeTok_eq hb, fixAfterTok_eq hb, Cut.feed_append_pipe s hb]
    constructor
    · intro hempty
      apply Cut.closed_subset_feed
      rw [Cut.addOptional_closed] at hempty
      rcases List.mem_append.mp hempty with hempty | hempty
      · rw [Cut.addOptional_closed] at hempty
        refine List.mem_append_left _ ?_
        rw [Cut.add_closed]
        exact h.closed hempty
      · -- the command that the pipe closes has no arguments
        obtain ⟨hcurrent, hnone⟩ :=
          (Cut.addOptional_current c _).mp (List.mem_singleton.mp hempty).symm
        have hbnil : b = [] := by
          by_contra hbne
          rw [if_neg hbne] at hnone
          cases hnone
        refine List.mem_append_right _ (List.mem_singleton.mpr ?_)
        rw [Cut.add, if_pos hbnil, h.current hcurrent]
    · intro hempty
      obtain ⟨-, hnone⟩ := (Cut.addOptional_current _ _).mp hempty
      have hrnil : r = [] := by
        by_contra hrne
        rw [if_neg hrne] at hnone
        cases hnone
      rw [hrnil, Cut.feed_nil]
      rfl
  · rw [Cut.take, if_neg hmem, Cut.feed_of_not_mem s hmem]
    refine ⟨fun hempty => ?_, fun hempty => by simp [Cut.addOptional] at hempty⟩
    rw [Cut.add_closed]
    exact h.closed hempty

/-- Where the parser leaves an empty command, the reference split has an empty segment. -/
theorem Follows.foldl {c s : Cut} (h : Follows c s) (toks : List Text) :
    Follows (toks.foldl Cut.take c) (toks.foldl Cut.feed s) := by
  induction toks generalizing c s with
  | nil => exact h
  | cons tok toks ih => exact ih (h.take tok)

/-- Only the last segment is dropped if it is empty. -/
theorem nil_mem_dropEmptyLast {c : Cut} (h : [] ∈ dropEmptyLast c.all) : [] ∈ c.closed := by
  rw [dropEmptyLast, Cut.all, List.getLast?_concat, List.dropLast_concat] at h
  split at h
  next => exact h
  next hne =>
    refine (List.mem_append.mp h).resolve_right fun hlast => ?_
    rw [List.mem_singleton] at hlast
    exact hne (congrArg some hlast.symm)

/-- A stored command without arguments is missing in the line. -/
theorem missingCommand_of_nil_mem {input : Text} {line : CommandLine}
    (h : parseCommandLine input = .ok line) (hnil : [] ∈ line.cmds.map Command.argv) :
    MissingCommand input := by
  rw [parseCommandLine_ok h] at hnil
  have hfollows : Follows ((tokens input).foldl Cut.take ⟨[], []⟩)
      ((tokens input).foldl Cut.feed ⟨[], []⟩) :=
    Follows.foldl ⟨id, id⟩ (tokens input)
  have hclosed := hfollows.closed (nil_mem_dropEmptyLast hnil)
  have hall : ((tokens input).foldl Cut.feed ⟨[], []⟩).all = segments input := by
    rw [feed_tokens]
    cases segments input <;> rfl
  rw [missingCommand_iff, ← hall]
  refine ⟨?_, List.mem_append_left _ hclosed⟩
  -- with a segment closed there is a pipe
  by_contra hpipe
  rw [segments_of_not_mem hpipe, Cut.all] at hall
  have hlength := congrArg List.length hall
  have hpos := List.length_pos_of_mem hclosed
  simp only [List.length_append, List.length_singleton] at hlength
  omega

/-! ## Empty arguments -/

/-- `AddArgument` gets an empty argument from a token with nothing but white space behind its
pipe. -/
theorem fixAfterTok_eq_some_nil (tok : Text) :
    '|' ∈ tok ∧ fixAfterTok tok = some [] ↔ BlankBehindPipe tok := by
  unfold BlankBehindPipe
  refine and_congr_right fun hmem => ?_
  obtain ⟨b, r, rfl, hb⟩ := List.eq_append_cons_of_mem hmem
  rw [fixAfterTok_eq hb, dropWhile_ne_pipe hb, List.tail_cons]
  by_cases hr : r = []
  · simp [hr]
  · simp [hr, List.dropWhile_eq_nil_iff]

namespace Cut

/-- No argument is empty. -/
def Filled (c : Cut) : Prop :=
  ∀ seg ∈ c.all, [] ∉ seg

theorem filled_addOptional {c : Cut} (h : c.Filled) {arg : Option Text} (harg : arg ≠ some []) :
    (c.addOptional arg).Filled := by
  cases arg with
  | none => exact h
  | some w =>
    intro seg hseg hnil
    rcases List.mem_append.mp hseg with hseg | hseg
    · exact h seg (List.mem_append_left _ hseg) hnil
    · rw [List.mem_singleton.mp hseg] at hnil
      rcases List.mem_append.mp hnil with hnil | hnil
      · exact h c.current (by simp [all]) hnil
      · rw [List.mem_singleton] at hnil
        exact harg (congrArg some hnil.symm)

theorem filled_next {c : Cut} (h : c.Filled) : c.next.Filled := by
  intro seg hseg
  rcases List.mem_append.mp hseg with hseg | hseg
  · exact h seg hseg
  · rw [List.mem_singleton.mp hseg]
    exact List.not_mem_nil

theorem filled_take {c : Cut} (h : c.Filled) {tok : Text} (hne : tok ≠ [])
    (hblank : ¬ BlankBehindPipe tok) : (c.take tok).Filled := by
  unfold take
  split
  next hmem =>
    have hbefore : fixBeforeTok tok ≠ some [] := by
      simp only [fixBeforeTok]
      split <;> simp_all
    have hafter : fixAfterTok tok ≠ some [] :=
      fun heq => hblank ((fixAfterTok_eq_some_nil tok).mp ⟨hmem, heq⟩)
    exact filled_addOptional (filled_next (filled_addOptional h hbefore)) hafter
  next => exact filled_addOptional h (by simpa using hne)

theorem filled_foldl {toks : List Text} {c : Cut} (h : c.Filled)
    (htoks : ∀ tok ∈ toks, tok ≠ [] ∧ ¬ BlankBehindPipe tok) : (toks.foldl take c).Filled := by
  induction toks generalizing c with
  | nil => exact h
  | cons tok toks ih =>
    obtain ⟨⟨hne, hblank⟩, hrest⟩ := List.forall_mem_cons.mp htoks
    exact ih (filled_take h hne hblank) hrest

/-- Nothing but white space behind a pipe becomes the empty name of the command behind it. -/
theorem exists_emptyName_take (c : Cut) {tok : Text} (hblank : BlankBehindPipe tok) :
    ∃ seg ∈ (c.take tok).all, seg.head? = some [] := by
  obtain ⟨hmem, hafter⟩ := (fixAfterTok_eq_some_nil tok).mpr hblank
  rw [take, if_pos hmem, hafter]
  exact ⟨[[]], by simp [addOptional, all, next], rfl⟩

end Cut

/-! ## Lines that are accepted -/

/-- For a line that is accepted: all its commands have a name that is not empty, and it misses no
command, exactly if no segment between its pipes is blank and no token has something but nothing
but white space behind its first pipe. -/
theorem runnable_iff {input : Text} {line : CommandLine} (h : parseCommandLine input = .ok line) :
    (∀ cmd ∈ line.cmds, cmd.Runnable) ∧ ¬ MissingCommand input ↔
      ¬ MissingCommand input ∧ ∀ tok ∈ tokens input, ¬ BlankBehindPipe tok := by
  have hok := parseCommandLine_ok h
  constructor
  · rintro ⟨hrun, hmissing⟩
    refine ⟨hmissing, fun tok htok hblank => ?_⟩
    have happend : ∀ (seg : List Text) (w : Text), seg.head? = some [] →
        (seg ++ [w]).head? = some [] := by
      intro seg w hseg
      cases seg <;> simp_all
    obtain ⟨seg, hseg, hhead⟩ := Cut.exists_foldl_of_mem happend htok
      (fun c => Cut.exists_emptyName_take c hblank) ⟨[], []⟩
    -- the command with the empty name is stored
    have hmem : seg ∈ line.cmds.map Command.argv := by
      rw [hok]
      exact mem_dropEmptyLast hseg (by rintro rfl; cases hhead)
    obtain ⟨cmd, hcmd, rfl⟩ := List.mem_map.mp hmem
    obtain ⟨name, hname, hne⟩ := hrun cmd hcmd
    rw [Command.name, hhead, Option.some.injEq] at hname
    exact hne hname.symm
  · rintro ⟨hmissing, hblank⟩
    refine ⟨fun cmd hcmd => ?_, hmissing⟩
    have hmem : cmd.argv ∈ line.cmds.map Command.argv := List.mem_map_of_mem hcmd
    cases hargv : cmd.argv with
    | nil => exact absurd (missingCommand_of_nil_mem h (hargv ▸ hmem)) hmissing
    | cons name rest =>
      refine ⟨name, by simp [Command.name, hargv], ?_⟩
      rintro rfl
      have hfilled : ((tokens input).foldl Cut.take ⟨[], []⟩).Filled :=
        Cut.filled_foldl (by simp [Cut.Filled, Cut.all])
          fun tok htok => ⟨(of_mem_tokens htok).1, hblank tok htok⟩
      rw [hok, hargv] at hmem
      exact hfilled _ (mem_of_mem_dropEmptyLast hmem) List.mem_cons_self

/-- `runnable_iff` on a line with two commands. -/
theorem runnable_two_commands :
    ∃ line, parseCommandLine "ls -l |wc".toList = .ok line ∧
      (∀ cmd ∈ line.cmds, cmd.Runnable) ∧ ¬ MissingCommand "ls -l |wc".toList := by
  have hparse : parseCommandLine "ls -l |wc".toList = .ok
      ⟨[⟨["ls".toList, "-l".toList]⟩, ⟨["wc".toList]⟩]⟩ := by
    decide +kernel
  have hmissing : ¬ MissingCommand "ls -l |wc".toList := by
    have hsegments : segments "ls -l |wc".toList =
        [["ls".toList, "-l".toList], ["wc".toList]] := by
      decide +kernel
    rw [missingCommand_iff, hsegments]
    simp
  have hblank : ((tokens "ls -l |wc".toList).all fun tok =>
      fixAfterTok tok ≠ some [] ∨ '|' ∉ tok) = true := by
    decide +kernel
  refine ⟨_, hparse, (runnable_iff hparse).mpr ⟨hmissing, fun tok htok h => ?_⟩⟩
  obtain ⟨hmem, hafter⟩ := (fixAfterTok_eq_some_nil tok).mpr h
  have hnot := List.all_eq_true.mp hblank tok htok
  simp [hmem, hafter] at hnot

/-- A pipe without a command in front of it is accepted, and the first of the two commands has no
name. -/
theorem not_runnable_leading_pipe :
    parseCommandLine "| wc".toList = .ok ⟨[⟨[]⟩, ⟨["wc".toList]⟩]⟩ ∧
      ¬ (⟨[]⟩ : Command).Runnable ∧ MissingCommand "| wc".toList := by
  refine ⟨by decide +kernel, ?_, ?_⟩
  · rintro ⟨name, hname, -⟩
    cases hname
  · refine ⟨by simp, [], ?_, by simp⟩
    have hsplit : "| wc".toList.splitOn '|' = [[], " wc".toList] := by decide +kernel
    rw [hsplit]
    exact List.mem_cons_self

end Shell
