import PosixTasks.Shell.Parser

/-!
# Where a command line is split

The reference split cuts the line at every `|` and then each segment at its blanks. The parser
does it the other way round, and looks only at the first `|` of a token. So the two agree as long
as no token has two of them; in a token that has, everything behind the first `|` becomes one
argument, pipes included.

## Main results

* `feed_tokens`: cutting each token at all its pipes gives the reference split, blanks or not;
* `take_eq_feed`: the parser cuts a token with at most one `|` like that;
* `parseCommandLine_eq_iff`: the parser gives the reference split exactly if no token has two
  pipes.
-/

namespace Shell

open CString

/-! ## The reference split -/

/-- The arguments in the segments between the pipes of the line. -/
def segments (input : Text) : List (List Text) :=
  (input.splitOn '|').map tokens

/-- A single empty last segment is dropped. -/
def dropEmptyLast (segs : List (List Text)) : List (List Text) :=
  if segs.getLast? = some [] then segs.dropLast else segs

/-- The commands of a line: it is cut at every `|`, and each segment at its blanks. -/
def referenceSplit (input : Text) : List (List Text) :=
  dropEmptyLast (segments input)

/-! ## Tokens -/

/-- The tokens in front of a separator and those behind it are all there are. -/
theorem tokens_append_cons (xs ys : Text) {c : Char} (hc : isSeparator c = true) :
    tokens (xs ++ c :: ys) = tokens xs ++ tokens ys := by
  rw [tokens, List.splitOnP_append_cons xs ys hc, List.filter_append]
  rfl

/-- The pieces between the cuts hold characters of the text that are not cut at. -/
theorem of_mem_splitOnP {cutAt : Char → Bool} {line piece : Text} {c : Char}
    (hpiece : piece ∈ line.splitOnP cutAt) (hc : c ∈ piece) : cutAt c = false ∧ c ∈ line := by
  induction line generalizing piece with
  | nil =>
    rw [List.splitOnP_nil, List.mem_singleton] at hpiece
    rw [hpiece] at hc
    cases hc
  | cons d line ih =>
    rw [List.splitOnP_cons_eq_if_modifyHead] at hpiece
    split at hpiece
    -- a separator ends a piece; every other character joins the first one
    next hcut =>
      rcases List.mem_cons.mp hpiece with rfl | hpiece
      · cases hc
      · exact (ih hpiece hc).imp_right (List.mem_cons_of_mem d)
    next hcut =>
      cases hsplit : line.splitOnP cutAt with
      | nil => exact absurd hsplit (List.splitOnP_ne_nil _ _)
      | cons first rest =>
        rw [hsplit, List.modifyHead_cons] at hpiece
        rcases List.mem_cons.mp hpiece with rfl | hpiece
        · rcases List.mem_cons.mp hc with rfl | hc
          · exact ⟨by simpa using hcut, List.mem_cons_self⟩
          · exact (ih (hsplit ▸ List.mem_cons_self) hc).imp_right (List.mem_cons_of_mem d)
        · exact (ih (hsplit ▸ List.mem_cons_of_mem _ hpiece) hc).imp_right
            (List.mem_cons_of_mem d)

/-- A token is not empty and holds characters of the line that are not separators. -/
theorem of_mem_tokens {line tok : Text} (h : tok ∈ tokens line) :
    tok ≠ [] ∧ ∀ c ∈ tok, isSeparator c = false ∧ c ∈ line := by
  rw [tokens, List.mem_filter] at h
  exact ⟨by simpa using h.2, fun c hc => of_mem_splitOnP h.1 hc⟩

/-- A text without separators is a token, or empty. -/
theorem tokens_of_forall {w : Text} (h : ∀ c ∈ w, isSeparator c = false) :
    tokens w = if w = [] then [] else [w] := by
  rw [tokens, List.splitOnP_eq_singleton h]
  split <;> simp_all

/-- A pipe ends a segment. -/
theorem segments_append_pipe {p : Text} (h : '|' ∉ p) (rest : Text) :
    segments (p ++ '|' :: rest) = tokens p :: segments rest := by
  rw [segments, List.splitOn_append_cons_self_of_not_mem h]
  rfl

/-- Without a pipe there is one segment. -/
theorem segments_of_not_mem {p : Text} (h : '|' ∉ p) : segments p = [tokens p] := by
  rw [segments, List.splitOn_eq_singleton h]
  rfl

/-- A leading separator adds nothing. -/
theorem tokens_cons {c : Char} (hc : isSeparator c = true) (rest : Text) :
    tokens (c :: rest) = tokens rest := by
  simpa [tokens] using tokens_append_cons [] rest hc

theorem segments_cons {c : Char} (hc : isSeparator c = true) (rest : Text) :
    segments (c :: rest) = segments rest := by
  have hne : (c == '|') = false := by
    rw [beq_eq_false_iff_ne]
    rintro rfl
    cases hc
  rw [segments, List.splitOn_cons_eq_if_modifyHead, if_neg (by simp [hne]), segments]
  cases rest.splitOn '|' with
  | nil => rfl
  | cons p ps => simp [tokens_cons hc]

/-- The text is at its end, or goes on with a separator. -/
def AtSeparator (tail : Text) : Prop :=
  ∀ c ∈ tail.head?, isSeparator c = true

/-- No token goes over a separator. -/
theorem tokens_append (v : Text) {tail : Text} (htail : AtSeparator tail) :
    tokens (v ++ tail) = tokens v ++ tokens tail := by
  cases tail with
  | nil => simp [tokens]
  | cons c rest =>
    have hc : isSeparator c = true := htail c rfl
    rw [tokens_append_cons v rest hc, tokens_cons hc]

/-- Without a pipe the text in front of a separator belongs to the first segment. -/
theorem segments_append {v tail : Text} (hpipe : '|' ∉ v) (htail : AtSeparator tail) :
    segments (v ++ tail) = (segments tail).modifyHead (tokens v ++ ·) := by
  by_cases hmem : '|' ∈ tail
  · obtain ⟨p, rest, rfl, hp⟩ := List.eq_append_cons_of_mem hmem
    have hvp : '|' ∉ v ++ p := by simp [hpipe, hp]
    have hsep : AtSeparator p := by
      intro c hc
      cases p with
      | nil => cases hc
      | cons d p => exact htail c hc
    rw [← List.append_assoc, segments_append_pipe hvp, segments_append_pipe hp,
      tokens_append v hsep]
    rfl
  · have hall : '|' ∉ v ++ tail := by simp [hpipe, hmem]
    rw [segments_of_not_mem hall, segments_of_not_mem hmem, tokens_append v htail]
    rfl

/-! ## Cutting token by token -/

/-- The segments so far, and the arguments of the one that is not closed yet. -/
structure Cut where
  closed : List (List Text)
  current : List Text

namespace Cut

/-- All segments. -/
def all (c : Cut) : List (List Text) := c.closed ++ [c.current]

/-- Another argument, unless it is empty. -/
def add (c : Cut) (w : Text) : Cut :=
  if w = [] then c else { c with current := c.current ++ [w] }

/-- The current segment is closed. -/
def next (c : Cut) : Cut := ⟨c.all, []⟩

/-- A token is cut at all its pipes. -/
def feed (c : Cut) (tok : Text) : Cut :=
  match tok.splitOn '|' with
  | [] => c
  | p :: ps => ps.foldl (fun c q => c.next.add q) (c.add p)

theorem feed_of_not_mem (c : Cut) {w : Text} (h : '|' ∉ w) : c.feed w = c.add w := by
  rw [feed, List.splitOn_eq_singleton h]
  rfl

theorem feed_append_pipe (c : Cut) {p : Text} (h : '|' ∉ p) (rest : Text) :
    c.feed (p ++ '|' :: rest) = (c.add p).next.feed rest := by
  rw [feed, feed, List.splitOn_append_cons_self_of_not_mem h]
  cases hrest : rest.splitOn '|' with
  | nil => exact absurd hrest (List.splitOn_ne_nil _ _)
  | cons q qs => rfl

theorem add_closed (c : Cut) (w : Text) : (c.add w).closed = c.closed := by
  unfold add
  split <;> rfl

theorem add_current (c : Cut) {w : Text} (h : ∀ d ∈ w, isSeparator d = false) :
    (c.add w).current = c.current ++ tokens w := by
  rw [tokens_of_forall h]
  unfold add
  split <;> simp

/-- What a token closes and leaves open, followed by what is behind it, is what was there before,
followed by the segments of the whole text. -/
theorem feed_append (c : Cut) {v tail : Text} (hv : ∀ d ∈ v, isSeparator d = false)
    (htail : AtSeparator tail) :
    (c.feed v).closed ++ (segments tail).modifyHead ((c.feed v).current ++ ·) =
      c.closed ++ (segments (v ++ tail)).modifyHead (c.current ++ ·) := by
  induction hlen : v.length using Nat.strong_induction_on generalizing c v with
  | _ n ih =>
  subst hlen
  by_cases hmem : '|' ∈ v
  · -- the token up to its first pipe, then what is behind
    obtain ⟨p, rest, rfl, hp⟩ := List.eq_append_cons_of_mem hmem
    have hvp : ∀ d ∈ p, isSeparator d = false := fun d hd => hv d (by simp [hd])
    have hvrest : ∀ d ∈ rest, isSeparator d = false := fun d hd => hv d (by simp [hd])
    have hlt : rest.length < (p ++ '|' :: rest).length := by
      simp only [List.length_append, List.length_cons]
      omega
    rw [feed_append_pipe c hp, ih rest.length hlt (c.add p).next hvrest rfl, List.append_assoc,
      List.cons_append, segments_append_pipe hp]
    cases segments (rest ++ tail) <;> simp [next, all, add_closed, add_current c hvp]
  · rw [feed_of_not_mem c hmem, segments_append hmem htail, add_closed, add_current c hv]
    cases segments tail <;> simp

theorem feed_nil (c : Cut) : c.feed [] = c := by
  rw [feed_of_not_mem c (by simp), add, if_pos rfl]

end Cut

/-- The text in front of the first separator, and what is behind. -/
theorem exists_atSeparator (line : Text) :
    ∃ v tail, line = v ++ tail ∧ (∀ d ∈ v, isSeparator d = false) ∧ AtSeparator tail := by
  refine ⟨line.takeWhile (! isSeparator ·), line.dropWhile (! isSeparator ·),
    List.takeWhile_append_dropWhile.symm, fun d hd => ?_, fun c hc => ?_⟩
  · simpa using List.mem_takeWhile_imp hd
  · have hhead := List.head?_dropWhile_not (! isSeparator ·) line
    rw [Option.mem_def.mp hc] at hhead
    simpa using hhead

/-- Cutting each token at its pipes gives the segments of the line, wherever the blanks are. -/
theorem feed_tokens (line : Text) (c : Cut) :
    ((tokens line).foldl Cut.feed c).all =
      c.closed ++ (segments line).modifyHead (c.current ++ ·) := by
  obtain ⟨v, tail, rfl, hv, htail⟩ := exists_atSeparator line
  have hfirst : (tokens v).foldl Cut.feed c = c.feed v := by
    rw [tokens_of_forall hv]
    split
    next hnil => rw [hnil, Cut.feed_nil]; rfl
    next => rfl
  rw [tokens_append v htail, List.foldl_append, hfirst, ← Cut.feed_append c hv htail]
  cases tail with
  | nil => simp [tokens, segments, Cut.all]
  | cons d rest =>
    -- the separator itself adds nothing
    have hd : isSeparator d = true := htail d rfl
    rw [tokens_cons hd, segments_cons hd]
    exact feed_tokens rest (c.feed v)
termination_by line.length

/-! ## What the parser does with a token -/

/-- Another argument, if it is not `NULL`. -/
def Cut.addOptional (c : Cut) : Option Text → Cut
  | some w => { c with current := c.current ++ [w] }
  | none => c

/-- One round of the loop, as far as it says where the line is cut. -/
def Cut.take (c : Cut) (tok : Text) : Cut :=
  if '|' ∈ tok then
    (c.addOptional (fixBeforeTok tok)).next.addOptional (fixAfterTok tok)
  else c.addOptional (some tok)

/-- The commands of the parser are segments, of which the current one is open. -/
def Parsing.cut (p : Parsing) : Cut :=
  ⟨p.before.map Command.argv, p.cur.argv⟩

theorem addArgument_ok {p q : Parsing} {arg : Text} (h : p.addArgument arg = .ok q) :
    q.cut = p.cut.addOptional (some arg) := by
  unfold Parsing.addArgument at h
  split at h <;> cases h
  rfl

theorem addOptional_ok {p q : Parsing} {arg : Option Text} (h : p.addOptional arg = .ok q) :
    q.cut = p.cut.addOptional arg := by
  cases arg with
  | none => cases h; rfl
  | some arg => exact addArgument_ok h

theorem nextCommand_ok {p q : Parsing} (h : p.nextCommand = .ok q) : q.cut = p.cut.next := by
  unfold Parsing.nextCommand at h
  split at h <;> cases h
  simp [Parsing.cut, Cut.next, Cut.all]

/-- What a step that can fail gives, if it does not. -/
theorem bind_ok {α β : Type} {x : Except CmdError α} {f : α → Except CmdError β} {b : β}
    (h : x >>= f = .ok b) : ∃ a, x = .ok a ∧ f a = .ok b := by
  cases x with
  | error e => cases h
  | ok a => exact ⟨a, rfl, h⟩

theorem takeToken_ok {p q : Parsing} {tok : Text} (h : p.takeToken tok = .ok q) :
    q.cut = p.cut.take tok := by
  unfold Parsing.takeToken at h
  split at h
  next hpipe =>
    rw [nextCommand_ok h, hpipe]
    rfl
  next =>
    split at h
    next hmem =>
      obtain ⟨p₁, h₁, h⟩ := bind_ok h
      obtain ⟨p₂, h₂, h₃⟩ := bind_ok h
      rw [Cut.take, if_pos hmem, addOptional_ok h₃, nextCommand_ok h₂, addOptional_ok h₁]
    next hmem => rw [Cut.take, if_neg hmem, addArgument_ok h]

theorem foldlM_ok {toks : List Text} {p q : Parsing}
    (h : toks.foldlM Parsing.takeToken p = .ok q) : q.cut = toks.foldl Cut.take p.cut := by
  induction toks generalizing p with
  | nil => cases h; rfl
  | cons tok toks ih =>
    obtain ⟨p₁, h₁, h⟩ := bind_ok h
    rw [List.foldl_cons, ← takeToken_ok h₁]
    exact ih h

/-- The commands that are stored are the segments the rounds of the loop have cut. -/
theorem parseCommandLine_ok {input : Text} {line : CommandLine}
    (h : parseCommandLine input = .ok line) :
    line.cmds.map Command.argv = dropEmptyLast ((tokens input).foldl Cut.take ⟨[], []⟩).all := by
  obtain ⟨p, hp, h⟩ := bind_ok h
  have hcut : p.cut = (tokens input).foldl Cut.take ⟨[], []⟩ := foldlM_ok hp
  cases h
  rw [← hcut, Parsing.finish, dropEmptyLast]
  by_cases hempty : p.cur.argv = []
  · simp [Parsing.cut, Cut.all, Command.argc, hempty]
  · simp [Parsing.cut, Cut.all, Command.argc, hempty, List.length_pos_iff]

/-! ## Tokens with one pipe -/

/-- White space that is no separator. -/
def isOtherSpace (c : Char) : Bool :=
  c = '\x0b' ∨ c = '\x0c' ∨ c = '\r'

theorem isSpace_eq (c : Char) : isSpace c = (isSeparator c || isOtherSpace c) := by
  simp only [isSpace, isSeparator, isOtherSpace, ← Bool.decide_or, or_assoc]

/-- The first pipe of a token. -/
theorem dropWhile_ne_pipe {b : Text} (hb : '|' ∉ b) (r : Text) :
    (b ++ '|' :: r).dropWhile (· ≠ '|') = '|' :: r := by
  have hne : ∀ c ∈ b, c ≠ '|' := fun c hc heq => hb (heq ▸ hc)
  rw [List.dropWhile_append_of_pos (by simpa using hne)]
  simp

/-- What is in front of the first pipe. -/
theorem fixBeforeTok_eq {b : Text} (hb : '|' ∉ b) (r : Text) :
    fixBeforeTok (b ++ '|' :: r) = if b = [] then none else some b := by
  rw [fixBeforeTok, takeWhile_ne_append hb]

/-- What is behind the first pipe. -/
theorem fixAfterTok_eq {b : Text} (hb : '|' ∉ b) (r : Text) :
    fixAfterTok (b ++ '|' :: r) = if r = [] then none else some (r.dropWhile isSpace) := by
  simp only [fixAfterTok, dropWhile_ne_pipe hb]
  simp

/-- A token with at most one pipe is cut at all its pipes. -/
theorem take_eq_feed (c : Cut) {tok : Text} (hne : tok ≠ [])
    (hspace : ∀ d ∈ tok, isSpace d = false) (hcount : tok.count '|' ≤ 1) :
    c.take tok = c.feed tok := by
  by_cases hmem : '|' ∈ tok
  · obtain ⟨b, r, rfl, hb⟩ := List.eq_append_cons_of_mem hmem
    have hr : '|' ∉ r := by
      rw [List.count_append, List.count_cons_self] at hcount
      exact List.count_eq_zero.mp (by omega)
    have hdrop : r.dropWhile isSpace = r := by
      cases r with
      | nil => rfl
      | cons d r => simp [hspace d (by simp)]
    rw [Cut.take, if_pos hmem, fixBeforeTok_eq hb, fixAfterTok_eq hb, hdrop,
      Cut.feed_append_pipe c hb, Cut.feed_of_not_mem _ hr, Cut.add, Cut.add]
    split <;> split <;> rfl
  · rw [Cut.take, if_neg hmem, Cut.feed_of_not_mem c hmem, Cut.add, if_neg hne]
    rfl

/-! ## Tokens with more pipes -/

/-- Some argument has a pipe in it. -/
def HasPipe (segs : List (List Text)) : Prop :=
  ∃ seg ∈ segs, ∃ arg ∈ seg, '|' ∈ arg

theorem not_hasPipe_segments (line : Text) : ¬ HasPipe (segments line) := by
  rintro ⟨seg, hseg, arg, harg, hpipe⟩
  rw [segments, List.mem_map] at hseg
  obtain ⟨piece, hpiece, rfl⟩ := hseg
  have hmem : '|' ∈ piece := ((of_mem_tokens harg).2 _ hpipe).2
  simpa using (of_mem_splitOnP hpiece hmem).1

/-- Only an empty segment is dropped. -/
theorem mem_dropEmptyLast {segs : List (List Text)} {seg : List Text} (h : seg ∈ segs)
    (hne : seg ≠ []) : seg ∈ dropEmptyLast segs := by
  unfold dropEmptyLast
  split
  next hlast =>
    rw [← List.dropLast_append_getLast? [] hlast, List.mem_append] at h
    exact h.resolve_right (by simpa using hne)
  next => exact h

theorem mem_of_mem_dropEmptyLast {segs : List (List Text)} {seg : List Text}
    (h : seg ∈ dropEmptyLast segs) : seg ∈ segs := by
  unfold dropEmptyLast at h
  split at h
  · exact List.mem_of_mem_dropLast h
  · exact h

theorem hasPipe_dropEmptyLast {segs : List (List Text)} (h : HasPipe segs) :
    HasPipe (dropEmptyLast segs) := by
  obtain ⟨seg, hseg, arg, harg, hpipe⟩ := h
  exact ⟨seg, mem_dropEmptyLast hseg (List.ne_nil_of_mem harg), arg, harg, hpipe⟩

theorem not_hasPipe_referenceSplit (line : Text) : ¬ HasPipe (referenceSplit line) := by
  rintro ⟨seg, hseg, hrest⟩
  exact not_hasPipe_segments line ⟨seg, mem_of_mem_dropEmptyLast hseg, hrest⟩

namespace Cut

/-! What holds of a segment whatever is added to it holds of some segment from then on. -/

variable {P : List Text → Prop}

theorem exists_addOptional (hP : ∀ seg w, P seg → P (seg ++ [w])) {c : Cut}
    (h : ∃ seg ∈ c.all, P seg) (arg : Option Text) : ∃ seg ∈ (c.addOptional arg).all, P seg := by
  cases arg with
  | none => exact h
  | some w =>
    obtain ⟨seg, hseg, hp⟩ := h
    rcases List.mem_append.mp hseg with hseg | hseg
    · exact ⟨seg, List.mem_append_left _ hseg, hp⟩
    · rw [List.mem_singleton.mp hseg] at hp
      exact ⟨c.current ++ [w], by simp [addOptional, all], hP _ w hp⟩

theorem exists_next {c : Cut} (h : ∃ seg ∈ c.all, P seg) : ∃ seg ∈ c.next.all, P seg := by
  obtain ⟨seg, hseg, hp⟩ := h
  exact ⟨seg, List.mem_append_left _ hseg, hp⟩

theorem exists_foldl (hP : ∀ seg w, P seg → P (seg ++ [w])) (toks : List Text) {c : Cut}
    (h : ∃ seg ∈ c.all, P seg) : ∃ seg ∈ (toks.foldl take c).all, P seg := by
  induction toks generalizing c with
  | nil => exact h
  | cons tok toks ih =>
    apply ih
    unfold take
    split
    · exact exists_addOptional hP (exists_next (exists_addOptional hP h _)) _
    · exact exists_addOptional hP h _

/-- It is enough that one of the tokens makes such a segment. -/
theorem exists_foldl_of_mem (hP : ∀ seg w, P seg → P (seg ++ [w])) {toks : List Text} {tok : Text}
    (h : tok ∈ toks) (hmakes : ∀ c : Cut, ∃ seg ∈ (c.take tok).all, P seg) (c : Cut) :
    ∃ seg ∈ (toks.foldl take c).all, P seg := by
  induction toks generalizing c with
  | nil => cases h
  | cons first toks ih =>
    rcases List.mem_cons.mp h with rfl | h
    · exact exists_foldl hP toks (hmakes c)
    · exact ih h _

/-- A second pipe ends up in the argument behind the first one. -/
theorem hasPipe_take_of_count (c : Cut) {tok : Text} (hcount : 1 < tok.count '|') :
    HasPipe (c.take tok).all := by
  have hmem : '|' ∈ tok := List.count_pos_iff.mp (by omega)
  obtain ⟨b, r, rfl, hb⟩ := List.eq_append_cons_of_mem hmem
  have hr : '|' ∈ r := by
    rw [List.count_append, List.count_cons_self, List.count_eq_zero.mpr hb] at hcount
    exact List.count_pos_iff.mp (by omega)
  have hdrop : '|' ∈ r.dropWhile isSpace := by
    have hsplit := List.takeWhile_append_dropWhile (p := isSpace) (l := r)
    rw [← hsplit, List.mem_append] at hr
    refine hr.resolve_left fun hspace => ?_
    have := List.mem_takeWhile_imp hspace
    cases this
  rw [take, if_pos hmem, fixAfterTok_eq hb, if_neg (List.ne_nil_of_mem hr)]
  exact ⟨[r.dropWhile isSpace], by simp [addOptional, all, next], _, List.mem_singleton_self _,
    hdrop⟩

/-- A token with two pipes anywhere in the line leaves one of them in an argument. -/
theorem hasPipe_foldl {toks : List Text} {tok : Text} (h : tok ∈ toks)
    (hcount : 1 < tok.count '|') (c : Cut) : HasPipe (toks.foldl take c).all := by
  apply exists_foldl_of_mem _ h fun c => hasPipe_take_of_count c hcount
  rintro seg w ⟨arg, harg, hpipe⟩
  exact ⟨arg, List.mem_append_left _ harg, hpipe⟩

end Cut

/-! ## The split of the parser -/

/-- For a line without vertical tab, form feed and carriage return that is parsed: its commands
are those of the reference split exactly if no token has two pipes in it. -/
theorem parseCommandLine_eq_iff {input : Text} {line : CommandLine}
    (hinput : ∀ c ∈ input, isOtherSpace c = false) (h : parseCommandLine input = .ok line) :
    line.cmds.map Command.argv = referenceSplit input ↔
      ∀ tok ∈ tokens input, tok.count '|' ≤ 1 := by
  rw [parseCommandLine_ok h]
  constructor
  · intro heq tok htok
    by_contra hcount
    have hpipe := hasPipe_dropEmptyLast (Cut.hasPipe_foldl htok (not_le.mp hcount) ⟨[], []⟩)
    rw [heq] at hpipe
    exact not_hasPipe_referenceSplit input hpipe
  · intro hcount
    -- only the two separators occur as white space
    have hspace : ∀ tok ∈ tokens input, ∀ d ∈ tok, isSpace d = false := by
      intro tok htok d hd
      obtain ⟨hsep, hmem⟩ := (of_mem_tokens htok).2 d hd
      rw [isSpace_eq, hsep, hinput d hmem]
      rfl
    have hfeed : (tokens input).foldl Cut.take ⟨[], []⟩ =
        (tokens input).foldl Cut.feed ⟨[], []⟩ := by
      apply List.foldl_ext
      intro c tok htok
      exact take_eq_feed c (of_mem_tokens htok).1 (hspace tok htok) (hcount tok htok)
    rw [hfeed, feed_tokens, referenceSplit]
    cases segments input <;> rfl

/-- `parseCommandLine_eq_iff` on a line with blanks around some of its pipes. -/
theorem parse_two_pipes :
    ∃ line, parseCommandLine "ls -l|sort | wc\n".toList = .ok line ∧
      line.cmds.map Command.argv = referenceSplit "ls -l|sort | wc\n".toList := by
  have hparse : parseCommandLine "ls -l|sort | wc\n".toList = .ok
      ⟨[⟨["ls".toList, "-l".toList]⟩, ⟨["sort".toList]⟩, ⟨["wc".toList]⟩]⟩ := by
    decide +kernel
  have hinput : ∀ c ∈ "ls -l|sort | wc\n".toList, isOtherSpace c = false := by
    simp [isOtherSpace]
  have hcount : ((tokens "ls -l|sort | wc\n".toList).all fun tok => tok.count '|' ≤ 1) = true := by
    decide +kernel
  refine ⟨_, hparse, (parseCommandLine_eq_iff hinput hparse).mpr fun tok htok => ?_⟩
  exact of_decide_eq_true (List.all_eq_true.mp hcount tok htok)

/-- Without blanks the second pipe stays in the argument behind the first one. -/
theorem parse_glued_pipes :
    parseCommandLine "a|b|c".toList = .ok ⟨[⟨["a".toList]⟩, ⟨["b|c".toList]⟩]⟩ ∧
      referenceSplit "a|b|c".toList = [["a".toList], ["b".toList], ["c".toList]] := by
  decide +kernel

end Shell
