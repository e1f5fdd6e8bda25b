import PosixTasks.Lib.PathTree
import PosixTasks.Lib.Transition
import PosixTasks.MonitorDaemon.State

/-!
# Watching the directories

`init_inotify` adds a watch for the monitored directory and for each directory below it, and
`process_inotify_events` adds watches where a directory has been created. The kernel ties a watch
descriptor to the directory itself, so that it follows a rename; `watch_list` keeps the path under
which the directory was when it was added.

The model has all directories of the file system, the watches of the inotify instance, the events
that `process_inotify_events` has not handled, and the state of the monitor. Directories are
created, removed and renamed at any time, but not while `add_inotify_watch_recursive` scans. There
are no symbolic links, `readdir` knows the type of each entry, and `inotify_add_watch` does not
fail.
-/

namespace MonitorDaemon

open CString

/-! ## Directories -/

/-- A directory can have this name. -/
def IsDirName (name : Text) : Prop :=
  name ≠ [] ∧ '/' ∉ name ∧ name ≠ ['.'] ∧ name ≠ ['.', '.']

instance (name : Text) : Decidable (IsDirName name) :=
  inferInstanceAs (Decidable (_ ∧ _ ∧ _ ∧ _))

/-- The name of a directory. -/
structure DirName where
  text : Text
  isDirName : IsDirName text
  deriving DecidableEq

/-- A directory by its names from the root of the file system on. -/
abbrev Path := List DirName

/-- What identifies a directory while it exists. -/
abbrev Ino := ℕ

/-- The directory that an absolute path without `..` names. -/
def resolve (path : Text) : Path :=
  (path.splitOn '/').filterMap fun name =>
    if h : IsDirName name then some ⟨name, h⟩ else none

/-- `IN_IGNORED`. -/
def inIgnored : Mask := 0x8000

/-- The directories, the inotify instance and the monitor. -/
structure World where
  tree : PathTree DirName Ino
  /-- The live watch descriptors, each with its directory. -/
  watches : List (ℤ × Ino)
  /-- The next watch descriptor. The kernel does not use one twice. -/
  nextWd : ℤ
  /-- The events that `read` has not returned. -/
  queue : List InotifyEvent
  /-- The events in `buffer` that `process_inotify_events` has not handled. -/
  buffer : List InotifyEvent
  state : MonitorState

/-! ## The kernel -/

/-- The watch descriptor of a directory. -/
def World.wdOf (w : World) (ino : Ino) : Option ℤ :=
  (w.watches.find? (·.2 = ino)).map Prod.fst

/-- An event is queued; it is lost if there are `max_queued_events` in the queue. -/
def World.notify (maxQueued : ℕ) (w : World) (event : InotifyEvent) : World :=
  if w.queue.length < maxQueued then { w with queue := w.queue ++ [event] } else w

/-- An event for a name in a directory is raised if the directory is watched. -/
def World.raise (maxQueued : ℕ) (w : World) (dir : Path) (mask : Mask) (name : Text) : World :=
  match (w.tree.idAt dir).bind w.wdOf with
  | some wd => w.notify maxQueued { wd, mask, name }
  | none => w

/-- The kernel drops the watch of a directory that is gone. -/
def World.dropWatch (maxQueued : ℕ) (w : World) (ino : Ino) : World :=
  match w.wdOf ino with
  | some wd =>
      { w with watches := w.watches.filter (·.2 ≠ ino) }.notify maxQueued
        { wd, mask := inIgnored, name := [] }
  | none => w

/-- `inotify_add_watch`: a directory that is watched already has its descriptor. -/
def World.inotifyAddWatch (w : World) (ino : Ino) : ℤ × World :=
  match w.wdOf ino with
  | some wd => (wd, w)
  | none =>
      (w.nextWd, { w with watches := w.watches ++ [(w.nextWd, ino)], nextWd := w.nextWd + 1 })

/-! ## The daemon -/

/-- The part of `add_inotify_watch_recursive` before its loop. -/
def World.storeWatch (w : World) (path : Text) (ino : Ino) : World :=
  let (wd, w) := w.inotifyAddWatch ino
  { w with state := { w.state with watchList := w.state.watchList ++ [{ wd, path }] } }

/-- `add_inotify_watch_recursive` to the depth `fuel`. -/
def World.addInotifyWatchRecursive : ℕ → Text → World → World
  | 0, _, w => w
  | fuel + 1, path, w =>
    match w.tree.idAt (resolve path) with
    -- `opendir` fails
    | none => w
    | some ino =>
        (w.tree.children (resolve path)).foldl
          (fun w name =>
            World.addInotifyWatchRecursive fuel (snprintf pathMax (joinPath path name.text)) w)
          (w.storeWatch path ino)

/-- No directory is deeper than this. -/
def World.scanDepth (w : World) : ℕ :=
  w.tree.depth + 1

/-- One iteration of the loop of `process_inotify_events`. -/
def World.handleEvent (isText : Text → Bool) (w : World) (event : InotifyEvent) : World :=
  match eventEffect isText w.state.watchList event with
  | .skip => w
  | .addWatch path => w.addInotifyWatchRecursive w.scanDepth path
  | .enqueue path =>
      { w with state :=
        { w.state with changedFilesQueue := enqueue w.state.changedFilesQueue path } }

/-- `init_monitor_state` and `init_inotify` before the first watch. -/
def World.unwatched (tree : PathTree DirName Ino) (monitoredDir : Text) (monitoredPid : ℤ)
    (inotifyFd : ℕ) : World where
  tree := tree
  watches := []
  nextWd := 1
  queue := []
  buffer := []
  state := .fresh monitoredDir monitoredPid inotifyFd []

/-- `init_inotify`; `none` if it fails. -/
def initInotify (tree : PathTree DirName Ino) (monitoredDir : Text) (monitoredPid : ℤ)
    (inotifyFd : ℕ) : Option World :=
  let w := World.unwatched tree monitoredDir monitoredPid inotifyFd
  if (tree.idAt (resolve monitoredDir)).isSome then
    some (w.addInotifyWatchRecursive w.scanDepth monitoredDir)
  else none

/-! ## Steps -/

/-- What happens to the directories, and what the daemon does in its loop. -/
inductive WatchAction where
  /-- `mkdir`, with the identity of the new directory -/
  | mkdir (dir : Path) (name : DirName) (ino : Ino)
  /-- `rmdir`; `held` if a process is in the directory or has it open -/
  | rmdir (dir : Path) (name : DirName) (held : Bool)
  /-- `rename`; `held` if a process is in the directory replaced or has it open -/
  | rename (dir : Path) (name : DirName) (dir' : Path) (name' : DirName) (held : Bool)
  /-- nobody is in a removed directory any more -/
  | release (ino : Ino)
  /-- the file system lists its directories in another order -/
  | reorder (nodes : List (Path × Ino))
  /-- something happens to a file in a directory -/
  | fileEvent (dir : Path) (mask : Mask) (name : Text)
  /-- `process_inotify_events` reads this number of events -/
  | read (count : ℕ)
  /-- it handles the next of them -/
  | handle (isText : Text → Bool)
  /-- `set_pid` for a process with this current directory -/
  | setPid (cwd : Text) (pid : ℤ)
  /-- a sample or another command -/
  | other (state : MonitorState)

/-- A removed directory exists for its watch as long as it is held. -/
def World.dropUnlessHeld (maxQueued : ℕ) (w : World) (ino : Ino) (held : Bool) : World :=
  if held then w else w.dropWatch maxQueued ino

/-- The next state; `none` if the action is not possible. -/
def watchStep (maxQueued : ℕ) (w : World) : WatchAction → Option World
  | .mkdir dir name ino =>
      if h : dir ∈ w.tree.paths ∧ dir ++ [name] ∉ w.tree.paths ∧ ino ∉ w.tree.ids ∧
          w.wdOf ino = none then
        some ({ w with tree := w.tree.add dir name ino h.1 h.2.1 h.2.2.1 }.raise maxQueued dir
          (inCreate ||| inIsdir) name.text)
      else none
  | .rmdir dir name held =>
      match w.tree.idAt (dir ++ [name]) with
      | none => none
      | some ino =>
        if h : w.tree.children (dir ++ [name]) = [] then
          some (({ w with tree := w.tree.remove (dir ++ [name]) h }.raise maxQueued dir
            (inDelete ||| inIsdir) name.text).dropUnlessHeld maxQueued ino held)
        else none
  | .rename dir name dir' name' held =>
      if h : w.tree.CanMove (dir ++ [name]) (dir' ++ [name']) then
        let moved := ({ w with tree := w.tree.move _ _ h }.raise maxQueued dir
          (inMovedFrom ||| inIsdir) name.text).raise maxQueued dir'
            (inMovedTo ||| inIsdir) name'.text
        match w.tree.idAt (dir' ++ [name']) with
        | none => some moved
        | some ino => some (moved.dropUnlessHeld maxQueued ino held)
      else none
  | .release ino => if ino ∈ w.tree.ids then none else some (w.dropWatch maxQueued ino)
  | .reorder nodes =>
      if h : nodes.Perm w.tree.nodes then some { w with tree := w.tree.reorder nodes h } else none
  | .fileEvent dir mask name =>
      if mask.has inIsdir then none else some (w.raise maxQueued dir mask name)
  | .read count =>
      if w.buffer = [] then
        some { w with buffer := w.queue.take count, queue := w.queue.drop count }
      else none
  | .handle isText =>
      match w.buffer with
      | [] => none
      | event :: rest => some ({ w with buffer := rest }.handleEvent isText event)
  -- commands are read after `process_inotify_events` has returned
  | .setPid cwd pid =>
      if w.buffer = [] then
        some { w with state :=
          { w.state with
            monitoredDir := cwd, monitoredPid := pid, firstBackupDone := false, files := [] } }
      else none
  | .other state =>
      if w.buffer = [] ∧ state.monitoredDir = w.state.monitoredDir ∧
          state.watchList = w.state.watchList then
        some { w with state := state }
      else none

/-! ## What the watches promise -/

/-- All events have been processed. -/
def World.Quiet (w : World) : Prop :=
  w.buffer = [] ∧ w.queue = []

instance (w : World) : Decidable w.Quiet :=
  inferInstanceAs (Decidable (_ ∧ _))

/-- The monitored directory. -/
def World.root (w : World) : Path :=
  resolve w.state.monitoredDir

/-- `watch_list` maps the live watch descriptors to the directories that exist at or under the
monitored directory, each under its current path. -/
structure World.WatchesTree (w : World) : Prop where
  /-- The path of a live watch descriptor is the current path of its directory, which is at or
  under the monitored directory. -/
  current : ∀ x ∈ w.watches, ∀ path, getWatchPath w.state.watchList x.1 = some path →
    (resolve path, x.2) ∈ w.tree.nodes ∧ w.root <+: resolve path
  /-- Every directory at or under the monitored directory is the directory of such a descriptor. -/
  complete : ∀ dir ino, (dir, ino) ∈ w.tree.nodes → w.root <+: dir →
    ∃ wd path, (wd, ino) ∈ w.watches ∧ getWatchPath w.state.watchList wd = some path ∧
      resolve path = dir

end MonitorDaemon
