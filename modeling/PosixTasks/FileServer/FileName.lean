import PosixTasks.FileServer.Answers
import PosixTasks.FileServer.Routing

/-!
# The name of a requested file

`send_get_command` formats a line with any name that fits in 512 bytes. The server splits what it
has read into lines, and `process_client_command` takes a name from each line with `%255s`: a word
of at most 255 bytes.

## Main results

* `exists_threads`: the names that the server looks up are words of at most 255 bytes;
* `servesName_iff`: the server looks up and sends exactly the name of the client if and only if
  this is such a word.
-/

namespace FileServer

open CString Lines

/-- `send_get_command`: what it writes where it returns 0. `written` tells whether the `write`
succeeds. -/
def sendGetCommand (written : Bool) (filename : Text) : Option Text :=
  if (getCommand filename).length < getBytes ∧ written then some (getCommand filename) else none

/-- A name that the server can take from a line. -/
structure IsFileName (filename : Text) : Prop where
  word : IsWord filename
  fits : filename.length ≤ pathBytes

/-- What the server makes of the line in slot `i`: it looks up this file, starts a thread for it if
it can, and does nothing else. -/
def ServesName (s : Server) (i : Fin maxClients) (line filename : Text) : Prop :=
  ∀ starts, s.processBuffer starts i line
    = if starts s.threads.length filename then
        { s with threads := s.threads ++ [s.newThread i filename] }
      else s

/-! ## The names that are looked up -/

/-- `%s` with a width reads a word that is not longer. -/
theorem isWord_of_scanWord {n : ℕ} {input word rest : Text}
    (h : scanWord (some n) input = some (word, rest)) : IsWord word ∧ word.length ≤ n := by
  simp only [scanWord] at h
  split at h
  next => cases h
  next hne =>
    obtain ⟨rfl, -⟩ := Prod.mk.inj (Option.some.inj h)
    refine ⟨⟨hne, fun c hc => ?_⟩, by simp [limit]⟩
    have hstart := limit_prefix (some n) ((input.dropWhile isSpace).takeWhile (! isSpace ·))
    have hmem := List.mem_takeWhile_imp (hstart.subset hc)
    simpa using hmem

theorem isFileName_of_requestOf {command filename : Text}
    (h : requestOf command = .get filename) : IsFileName filename := by
  unfold requestOf at h
  split at h
  · cases h
  · split at h
    · split at h
      next hscan =>
        obtain rfl := Request.get.inj h
        obtain ⟨hword, hfits⟩ := isWord_of_scanWord hscan
        exact ⟨hword, hfits⟩
      next => cases h
    · cases h

/-- The threads that a line starts are for words of at most 255 bytes. -/
theorem exists_threads (s : Server) (starts : ℕ → Text → Bool) (i : Fin maxClients)
    (line : Text) :
    ∃ threads, (s.processBuffer starts i line).threads = s.threads ++ threads ∧
      ∀ t ∈ threads, IsFileName t.filename := by
  rw [Server.processBuffer_eq_foldl]
  induction commandsOf line generalizing s with
  | nil => exact ⟨[], by simp, by simp⟩
  | cons command commands ih =>
    -- one command starts at most one thread
    have hstep : ∃ threads, (s.processClientCommand starts i command).threads
        = s.threads ++ threads ∧ ∀ t ∈ threads, IsFileName t.filename := by
      unfold Server.processClientCommand
      split
      next =>
        split
        next => exact ⟨[], by simp [closeClientConnection_threads], by simp⟩
        next filename hget =>
          split
          · exact ⟨[s.newThread i filename], rfl, by
              simpa [Server.newThread] using isFileName_of_requestOf hget⟩
          · exact ⟨[], by simp, by simp⟩
        all_goals exact ⟨[], by simp, by simp⟩
      next => exact ⟨[], by simp, by simp⟩
    obtain ⟨first, hfirst, hnames⟩ := hstep
    obtain ⟨others, hothers, hnames'⟩ := ih (s.processClientCommand starts i command)
    refine ⟨first ++ others, ?_, ?_⟩
    · rw [List.foldl_cons, hothers, hfirst, List.append_assoc]
    · intro t ht
      rcases List.mem_append.mp ht with ht | ht
      · exact hnames t ht
      · exact hnames' t ht

/-! ## The line of a name -/

/-- A word has no newline. -/
theorem newline_not_mem {w : Text} (h : IsWord w) : '\n' ∉ w := by
  intro hmem
  exact absurd (h.2 '\n' hmem) (by decide)

/-- The line of a word is one command. -/
theorem commandsOf_getCommand {filename : Text} (hword : IsWord filename)
    (hnul : '\x00' ∉ filename) :
    commandsOf (getCommand filename) = [cmdGet ++ ' ' :: filename] := by
  have hline : '\n' ∉ cmdGet ++ ' ' :: filename := by
    simp [cmdGet, newline_not_mem hword]
  have hbuffer : ofBuffer (getCommand filename) = (cmdGet ++ ' ' :: filename) ++ ['\n'] := by
    have hnone : '\x00' ∉ getCommand filename := by simp [getCommand, cmdGet, hnul]
    rw [ofBuffer_of_not_mem hnone, getCommand]
    simp
  rw [commandsOf, hbuffer, split_append_line hline, split_nil, nonblank_append,
    nonblank_cons (by simp [cmdGet]), nonblank_nil, nonblank_blank, nonblank_nil, List.append_nil]

/-- From the line of a word its first 255 bytes are taken. -/
theorem requestOf_getCommand {filename : Text} (hword : IsWord filename)
    (hfits : (getCommand filename).length < getBytes) :
    requestOf (commandCopy (cmdGet ++ ' ' :: filename)) = .get (filename.take pathBytes) := by
  have hlength : (cmdGet ++ ' ' :: filename).length ≤ commandBytes := by
    simp only [getCommand, getBytes, commandBytes, List.length_append, List.length_cons,
      List.length_nil] at hfits ⊢
    omega
  have hcopy : commandCopy (cmdGet ++ ' ' :: filename) = cmdGet ++ ' ' :: filename :=
    commandCopy_of_fits ⟨hlength, by simp [cmdGet, newline_not_mem hword]⟩
  have hdisconnect : ¬ cmdDisconnect <+: cmdGet ++ ' ' :: filename := by
    simp [cmdDisconnect, cmdGet]
  have hdrop : (cmdGet ++ ' ' :: filename).drop (cmdGet.length + 1) = filename := by
    simp [cmdGet]
  have hbreak : AtBreak [] := by simp [AtBreak]
  have hscan := scanWord_width (n := pathBytes) (by decide) hword hbreak
  rw [List.append_nil] at hscan
  rw [hcopy, requestOf, if_neg hdisconnect, if_pos (List.prefix_append _ _), hdrop, hscan]

/-- For every name that `send_get_command` accepts, the server looks up and sends exactly this file
if and only if the name is a word of at most 255 bytes. -/
theorem servesName_iff {s : Server} {i : Fin maxClients} (hactive : (s.clients i).isActive)
    {filename line : Text} (hnul : '\x00' ∉ filename)
    (hsent : sendGetCommand true filename = some line) :
    ServesName s i line filename ↔ IsFileName filename := by
  simp only [sendGetCommand] at hsent
  split at hsent
  next hfits =>
    obtain rfl := Option.some.inj hsent
    constructor
    · intro hserves
      -- where every thread can be started, one is started for the name
      have hthreads := congrArg Server.threads (hserves fun _ _ => true)
      obtain ⟨threads, heq, hnames⟩ := exists_threads s (fun _ _ => true) i (getCommand filename)
      rw [heq] at hthreads
      have hone : threads = [s.newThread i filename] := List.append_cancel_left hthreads
      exact hnames _ (hone ▸ List.mem_singleton_self _)
    · intro hname starts
      have hget := requestOf_getCommand hname.word hfits.1
      rw [List.take_of_length_le hname.fits] at hget
      rw [Server.processBuffer_eq_foldl, commandsOf_getCommand hname.word hnul, List.foldl_cons,
        List.foldl_nil, Server.processClientCommand, if_pos hactive, hget]
  next => cases hsent

/-- `servesName_iff` for the name `f`. -/
theorem servesName_f : ServesName oneClient 0 (getCommand ['f']) ['f'] := by
  have hactive : (oneClient.clients 0).isActive := by decide +kernel
  have hsent : sendGetCommand true ['f'] = some (getCommand ['f']) := by
    refine if_pos ⟨?_, rfl⟩
    simp [getCommand, cmdGet, getBytes]
  have hname : IsFileName ['f'] := ⟨⟨by simp, by simp [isSpace]⟩, by simp [pathBytes]⟩
  exact (servesName_iff hactive (by decide) hsent).mpr hname

/-- A name with a blank. -/
def blankName : Text := ['a', ' ', 'b']

/-- The name `a b` is accepted, and the server looks up and sends the file `a`. -/
theorem not_servesName_blank :
    sendGetCommand true blankName = some (getCommand blankName) ∧
      (oneClient.processBuffer (fun _ _ => true) 0 (getCommand blankName)).threads.map
        Thread.filename = [['a']] ∧
      ¬ ServesName oneClient 0 (getCommand blankName) blankName := by
  have hthreads : (oneClient.processBuffer (fun _ _ => true) 0
      (getCommand blankName)).threads.map Thread.filename = [['a']] := by
    decide +kernel
  refine ⟨by decide +kernel, hthreads, fun hserves => ?_⟩
  rw [hserves fun _ _ => true] at hthreads
  exact absurd hthreads (by decide +kernel)

end FileServer
