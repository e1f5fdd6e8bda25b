import PosixTasks.FileServer.Connection

/-!
# The sending thread

`send_file_to_client` runs in a detached thread of its own. It opens the file, writes the header
`SIZE:<size>` to the descriptor in its `FileTask`, and then the file in chunks of at most
`BUFFER_SIZE` bytes. Each chunk and the header fit in `PIPE_BUF`, so a write to a FIFO is whole
or fails.
-/

namespace FileServer

open CString

/-- `BUFFER_SIZE`. -/
def chunkBytes : ℕ := 4096

/-- `sizeof(size_header)`, in the thread and in `receive_file`. -/
def headerBytes : ℕ := 64

/-- `RESP_SIZE` and the colon. -/
def sizeMark : Text := ['S', 'I', 'Z', 'E', ':']

/-- The header of a file of `size` bytes: `"SIZE:%ld\n"`. -/
def sizeHeader (size : ℕ) : Text :=
  sizeMark ++ decimal size ++ ['\n']

/-- Where the thread is. -/
inductive SenderPos where
  /-- before `fopen` -/
  | opening
  /-- the file is open and its size known -/
  | header (size : ℕ)
  /-- in the loop, with `total_sent` -/
  | sending (size sent : ℕ)
  | ended
  deriving DecidableEq, Repr

/-- The next call of the thread, with what it returns. -/
inductive SenderAction where
  /-- `fopen`, the seeks and `ftell` succeed -/
  | openFile (size : ℕ)
  /-- one of them fails -/
  | openFailed
  | writeHeader (written : Bool)
  /-- `fread` returns `data`, and `write` the whole of it or an error -/
  | sendChunk (data : Text) (written : Bool)
  /-- the loop ends with `total_sent` at the size -/
  | finish
  /-- the loop ends because `server_running` is 0 -/
  | stop

/-- One step of `send_file_to_client`, with the bytes that go to `task->client_fd`. -/
def senderStep : SenderPos → SenderAction → Option (SenderPos × Text)
  | .opening, .openFile size => some (.header size, [])
  | .opening, .openFailed => some (.ended, [])
  | .header size, .writeHeader written =>
      if (sizeHeader size).length < headerBytes ∧ written then
        some (.sending size 0, sizeHeader size)
      else some (.ended, [])
  | .sending size sent, .sendChunk data written =>
      if sent < size ∧ data.length ≤ chunkBytes then
        -- an empty read and a failed write both leave the loop
        if data ≠ [] ∧ written then some (.sending size (sent + data.length), data)
        else some (.ended, [])
      else none
  | .sending size sent, .finish => if size ≤ sent then some (.ended, []) else none
  | .sending _ _, .stop => some (.ended, [])
  | _, _ => none

/-- The thread has ended for good. -/
@[simp]
theorem senderStep_ended (a : SenderAction) : senderStep .ended a = none := by
  cases a <;> rfl

/-- A step opens the file, writes the header, writes a chunk, or ends the thread. -/
theorem senderStep_cases {pos pos' : SenderPos} {a : SenderAction} {bytes : Text}
    (h : senderStep pos a = some (pos', bytes)) :
    (∃ size, pos = .opening ∧ a = .openFile size ∧ pos' = .header size ∧ bytes = []) ∨
      (∃ size, pos = .header size ∧ a = .writeHeader true ∧
        (sizeHeader size).length < headerBytes ∧ pos' = .sending size 0 ∧
        bytes = sizeHeader size) ∨
      (∃ size sent, pos = .sending size sent ∧ a = .sendChunk bytes true ∧ sent < size ∧
        bytes ≠ [] ∧ bytes.length ≤ chunkBytes ∧ pos' = .sending size (sent + bytes.length)) ∨
      pos' = .ended ∧ bytes = [] := by
  unfold senderStep at h
  split at h
  next size =>
    simp only [Option.some.injEq, Prod.mk.injEq] at h
    exact Or.inl ⟨size, rfl, rfl, h.1.symm, h.2.symm⟩
  next =>
    simp only [Option.some.injEq, Prod.mk.injEq] at h
    exact Or.inr (Or.inr (Or.inr ⟨h.1.symm, h.2.symm⟩))
  next size written =>
    split at h
    next hfits =>
      simp only [Option.some.injEq, Prod.mk.injEq] at h
      refine Or.inr (Or.inl ⟨size, rfl, ?_, hfits.1, h.1.symm, h.2.symm⟩)
      rw [hfits.2]
    next =>
      simp only [Option.some.injEq, Prod.mk.injEq] at h
      exact Or.inr (Or.inr (Or.inr ⟨h.1.symm, h.2.symm⟩))
  next size sent data written =>
    split at h
    next hchunk =>
      split at h
      next hdata =>
        simp only [Option.some.injEq, Prod.mk.injEq] at h
        obtain ⟨rfl, rfl⟩ := h
        refine Or.inr (Or.inr (Or.inl
          ⟨size, sent, rfl, ?_, hchunk.1, hdata.1, hchunk.2, rfl⟩))
        rw [hdata.2]
      next =>
        simp only [Option.some.injEq, Prod.mk.injEq] at h
        exact Or.inr (Or.inr (Or.inr ⟨h.1.symm, h.2.symm⟩))
    next => simp at h
  next =>
    split at h
    next =>
      simp only [Option.some.injEq, Prod.mk.injEq] at h
      exact Or.inr (Or.inr (Or.inr ⟨h.1.symm, h.2.symm⟩))
    next => simp at h
  next =>
    simp only [Option.some.injEq, Prod.mk.injEq] at h
    exact Or.inr (Or.inr (Or.inr ⟨h.1.symm, h.2.symm⟩))
  next => simp at h

end FileServer
