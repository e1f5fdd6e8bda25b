import PosixTasks.MonitorDaemon.Watch

/-!
# The watched directories are the monitored tree

A directory that exists under the monitored directory is watched, or an event is under way that
announces it or a directory above it; handling that event scans everything below. A path in
`watch_list` stays right as long as no directory moves, and the descriptor of a directory goes
with it.

So the watches follow the tree unless a directory is renamed, unless `set_pid` changes the
monitored directory, and unless an event is lost or the monitored directory itself is created
again.

## Main results

* `following_step`: what the watches and the events under way say about the tree is kept by every
  step that moves no directory;
* `watchesTree_of_run`: in every run of such steps, whenever all events have been processed, the
  watches are the monitored tree;
* `watchesTree_setPid_iff`, `keepsPaths_of_rename`: when `set_pid` and `rename` leave them right;
* `following_rename_undone`: a `rename` that is undone at once does no harm.
-/

namespace MonitorDaemon

open CString Transition

variable {maxQueued : ℕ} {w w' : World}

/-! ## Paths -/

/-- The path of a directory under `dir`, as `add_inotify_watch_recursive` makes it. -/
def watchPath (dir : Text) (rel : Path) : Text :=
  rel.foldl (fun path name => joinPath path name.text) dir

@[simp]
theorem watchPath_nil (dir : Text) : watchPath dir [] = dir :=
  rfl

theorem watchPath_concat (dir : Text) (rel : Path) (name : DirName) :
    watchPath dir (rel ++ [name]) = joinPath (watchPath dir rel) name.text := by
  simp [watchPath]

/-- The kernel finds a name in the directory that it finds under the path before it. -/
theorem resolve_joinPath (path : Text) (name : DirName) :
    resolve (joinPath path name.text) = resolve path ++ [name] := by
  have hname : name.text.splitOn '/' = [name.text] := by
    refine List.splitOnP_eq_singleton fun c hc => ?_
    simpa using fun heq : c = '/' => name.isDirName.2.1 (heq ▸ hc)
  have hsplit : (joinPath path name.text).splitOn '/' =
      path.splitOn '/' ++ name.text.splitOn '/' :=
    List.splitOnP_append_cons _ _ (by simp)
  rw [resolve, hsplit, hname, List.filterMap_append, resolve]
  simp [name.isDirName]

theorem resolve_watchPath (dir : Text) (rel : Path) :
    resolve (watchPath dir rel) = resolve dir ++ rel := by
  induction rel using List.reverseRecOn with
  | nil => simp
  | append_singleton rel name ih =>
    rw [watchPath_concat, resolve_joinPath, ih, List.append_assoc]

/-- Different directories have different paths. -/
theorem watchPath_inj {dir : Text} {rel rel' : Path}
    (h : watchPath dir rel = watchPath dir rel') : rel = rel' := by
  have := congrArg resolve h
  rwa [resolve_watchPath, resolve_watchPath, List.append_cancel_left_eq] at this

/-- A watch that is in the list keeps its path when watches are added. -/
theorem getWatchPath_mono {l l' : List WatchInfo} {wd : ℤ} {path : Text} (hle : l <+: l')
    (h : getWatchPath l wd = some path) : getWatchPath l' wd = some path := by
  obtain ⟨r, rfl⟩ := hle
  simp only [getWatchPath, Option.map_eq_some_iff] at h ⊢
  obtain ⟨info, hinfo, rfl⟩ := h
  exact ⟨info, by rw [List.find?_append, hinfo, Option.some_or], rfl⟩

/-! ## What the watches know about the tree -/

/-- The events that are under way. -/
def World.pending (w : World) : List InotifyEvent :=
  w.buffer ++ w.queue

/-- The directory is watched. -/
def World.Watched (w : World) (ino : Ino) : Prop :=
  ∃ wd, (wd, ino) ∈ w.watches

/-- No path of a directory under the monitored directory is too long. -/
def World.Fits (w : World) : Prop :=
  ∀ rel, w.root ++ rel ∈ w.tree.paths → (watchPath w.state.monitoredDir rel).length < pathMax

/-- A directory has been created. -/
def InotifyEvent.IsNewDir (event : InotifyEvent) : Prop :=
  event.mask.has inIsdir = true ∧ event.mask.has inCreate = true

/-- The event makes the daemon scan the directory `rel`. -/
def World.Announces (w : World) (event : InotifyEvent) (rel : Path) : Prop :=
  event.IsNewDir ∧ ∃ dir name, rel = dir ++ [name] ∧ event.name = name.text ∧
    getWatchPath w.state.watchList event.wd = some (watchPath w.state.monitoredDir dir)

/-- The watch list and the live watches fit the tree. -/
structure Listed (w : World) : Prop where
  watch_lt : ∀ x ∈ w.watches, x.1 < w.nextWd
  entry_lt : ∀ info ∈ w.state.watchList, info.wd < w.nextWd
  /-- The path of a live watch is the current one. -/
  live : ∀ x ∈ w.watches, ∃ rel,
    getWatchPath w.state.watchList x.1 = some (watchPath w.state.monitoredDir rel) ∧
      (w.root ++ rel, x.2) ∈ w.tree.nodes

/-- The watches are the tree, up to the events that are under way. -/
structure Following (w : World) : Prop extends Listed w where
  fits : w.Fits
  /-- Every new directory is where the daemon will look for it. -/
  announced : ∀ event ∈ w.pending, event.IsNewDir →
    ∃ rel, w.Announces event rel ∧ (watchPath w.state.monitoredDir rel).length < pathMax
  /-- A directory that is not watched has been announced, or one above it has. -/
  covered : ∀ rel ino, (w.root ++ rel, ino) ∈ w.tree.nodes →
    w.Watched ino ∨ ∃ event ∈ w.pending, ∃ above, w.Announces event above ∧ above <+: rel

/-- Once no events are under way, the watches are the tree. -/
theorem Following.watchesTree (h : Following w) (hquiet : w.Quiet) : w.WatchesTree where
  current x hx path hpath := by
    obtain ⟨rel, hrel, hmem⟩ := h.live x hx
    obtain rfl : watchPath w.state.monitoredDir rel = path :=
      Option.some.inj (hrel.symm.trans hpath)
    rw [resolve_watchPath]
    exact ⟨hmem, List.prefix_append _ _⟩
  complete dir ino hmem hunder := by
    obtain ⟨rel, rfl⟩ := hunder
    rcases h.covered rel ino hmem with ⟨wd, hwd⟩ | ⟨event, hevent, -⟩
    · obtain ⟨rel', hpath, hmem'⟩ := h.live _ hwd
      refine ⟨wd, _, hwd, hpath, ?_⟩
      rw [resolve_watchPath]
      exact w.tree.path_unique hmem' hmem
    · rw [World.pending, hquiet.1, hquiet.2] at hevent
      cases hevent

/-! ## The kernel -/

theorem World.mem_of_wdOf {ino : Ino} {wd : ℤ} (h : w.wdOf ino = some wd) :
    (wd, ino) ∈ w.watches := by
  simp only [World.wdOf, Option.map_eq_some_iff] at h
  obtain ⟨⟨wd', ino'⟩, hfind, rfl⟩ := h
  have hino : ino' = ino := by simpa using List.find?_some hfind
  exact hino ▸ List.mem_of_find?_eq_some hfind

theorem World.not_watched_of_wdOf {ino : Ino} (h : w.wdOf ino = none) : ¬ w.Watched ino := by
  rintro ⟨wd, hwd⟩
  simp only [World.wdOf, Option.map_eq_none_iff, List.find?_eq_none] at h
  exact h _ hwd (by simp)

theorem World.Watched.wdOf {ino : Ino} (h : w.Watched ino) : ∃ wd, w.wdOf ino = some wd :=
  Option.ne_none_iff_exists'.mp fun hnone => w.not_watched_of_wdOf hnone h

/-- Events have been queued, none of them for a new directory, and nothing else has changed. -/
def Queued (w w' : World) : Prop :=
  ∃ extra, w' = { w with queue := w.queue ++ extra } ∧ ∀ event ∈ extra, ¬ event.IsNewDir

theorem Queued.refl (w : World) : Queued w w :=
  ⟨[], by simp, by simp⟩

theorem Queued.trans {w'' : World} (h : Queued w w') (h' : Queued w' w'') : Queued w w'' := by
  obtain ⟨extra, rfl, hextra⟩ := h
  obtain ⟨extra', rfl, hextra'⟩ := h'
  refine ⟨extra ++ extra', by simp, fun event hevent => ?_⟩
  exact (List.mem_append.mp hevent).elim (hextra event) (hextra' event)

theorem queued_notify (maxQueued : ℕ) {event : InotifyEvent} (h : ¬ event.IsNewDir) :
    Queued w (w.notify maxQueued event) := by
  rw [World.notify]
  split
  · exact ⟨[event], rfl, by simpa using h⟩
  · exact Queued.refl w

theorem queued_raise (maxQueued : ℕ) (dir : Path) (mask : Mask) (name : Text)
    (h : ¬ (mask.has inIsdir = true ∧ mask.has inCreate = true)) :
    Queued w (w.raise maxQueued dir mask name) := by
  rw [World.raise]
  split
  · exact queued_notify maxQueued h
  · exact Queued.refl w

/-- The watch of a directory that is gone is dropped. -/
theorem queued_dropWatch (maxQueued : ℕ) (ino : Ino) :
    Queued { w with watches := w.watches.filter (·.2 ≠ ino) } (w.dropWatch maxQueued ino) := by
  rw [World.dropWatch]
  split
  · have hmask : Mask.has inIgnored inCreate = false := by decide
    exact queued_notify maxQueued fun h => by simp [InotifyEvent.IsNewDir, hmask] at h
  next hnone =>
    -- there was no watch
    have hfilter : w.watches.filter (·.2 ≠ ino) = w.watches := by
      refine List.filter_eq_self.mpr fun x hx => ?_
      simpa using fun heq : x.2 = ino => w.not_watched_of_wdOf hnone ⟨x.1, heq ▸ hx⟩
    rw [hfilter]
    exact Queued.refl w

/-! ## Steps that add no watch -/

/-- An event is announced in the same way while the list keeps its entries. -/
theorem World.Announces.mono {event : InotifyEvent} {rel : Path} (h : w.Announces event rel)
    (hlist : w.state.watchList <+: w'.state.watchList)
    (hdir : w'.state.monitoredDir = w.state.monitoredDir) : w'.Announces event rel := by
  obtain ⟨hnew, dir, name, hrel, hname, hpath⟩ := h
  refine ⟨hnew, dir, name, hrel, hname, ?_⟩
  rw [hdir]
  exact getWatchPath_mono hlist hpath

/-- The events under way may be read, and others may go. -/
theorem Following.congr (h : Following w) (htree : w'.tree = w.tree)
    (hwatches : w'.watches = w.watches) (hnext : w'.nextWd = w.nextWd)
    (hlist : w'.state.watchList = w.state.watchList)
    (hdir : w'.state.monitoredDir = w.state.monitoredDir)
    (hpending : ∀ event, event.IsNewDir → (event ∈ w'.pending ↔ event ∈ w.pending)) :
    Following w' := by
  -- the root is found through the name of the monitored directory
  have hroot : w'.root = w.root := by rw [World.root, World.root, hdir]
  exact {
    watch_lt := by
      rw [hwatches, hnext]
      exact h.watch_lt
    entry_lt := by
      rw [hlist, hnext]
      exact h.entry_lt
    live := by
      rw [hwatches, hlist, hdir, hroot, htree]
      exact h.live
    fits := by
      rw [World.Fits, hroot, htree, hdir]
      exact h.fits
    announced := fun event hevent hnew => by
      obtain ⟨rel, hrel, hlength⟩ := h.announced event ((hpending event hnew).mp hevent) hnew
      rw [← hdir] at hlength
      exact ⟨rel, hrel.mono (hlist ▸ List.prefix_rfl) hdir, hlength⟩
    covered := fun rel ino hmem => by
      rw [hroot, htree] at hmem
      rcases h.covered rel ino hmem with ⟨wd, hwd⟩ | ⟨event, hevent, above, habove, hle⟩
      · exact Or.inl ⟨wd, hwatches ▸ hwd⟩
      · exact Or.inr ⟨event, (hpending event habove.1).mpr hevent, above,
          habove.mono (hlist ▸ List.prefix_rfl) hdir, hle⟩ }

/-- Directories under the monitored directory may go, each with its watch. -/
theorem Following.shrink {tree : PathTree DirName Ino} {watches : List (ℤ × Ino)}
    (h : Following w) (hqueued : Queued { w with tree := tree, watches := watches } w')
    (hnodes : ∀ rel ino, (w.root ++ rel, ino) ∈ tree.nodes → (w.root ++ rel, ino) ∈ w.tree.nodes)
    (hsub : ∀ x ∈ watches, x ∈ w.watches)
    (hlive : ∀ rel, ∀ x ∈ watches, (w.root ++ rel, x.2) ∈ w.tree.nodes →
      (w.root ++ rel, x.2) ∈ tree.nodes)
    (hkeep : ∀ rel, ∀ x ∈ w.watches, (w.root ++ rel, x.2) ∈ tree.nodes → x ∈ watches) :
    Following w' := by
  -- the kernel adds no event of a new directory
  obtain ⟨extra, rfl, hextra⟩ := hqueued
  exact {
    watch_lt := fun x hx => h.watch_lt x (hsub x hx)
    entry_lt := h.entry_lt
    live := fun x hx => by
      obtain ⟨rel, hpath, hmem⟩ := h.live x (hsub x hx)
      exact ⟨rel, hpath, hlive rel x hx hmem⟩
    fits := fun rel hrel => by
      obtain ⟨ino, hmem⟩ := PathTree.mem_paths_iff.mp hrel
      exact h.fits rel (PathTree.mem_paths_of_mem (hnodes rel ino hmem))
    announced := fun event hevent hnew => by
      refine h.announced event ?_ hnew
      simp only [World.pending, List.mem_append] at hevent ⊢
      have := hextra event
      tauto
    covered := fun rel ino hmem => by
      rcases h.covered rel ino (hnodes rel ino hmem) with
        ⟨wd, hwd⟩ | ⟨event, hevent, above, habove, hle⟩
      · exact Or.inl ⟨wd, hkeep rel _ hwd hmem⟩
      · refine Or.inr ⟨event, ?_, above, habove, hle⟩
        simp only [World.pending, List.mem_append] at hevent ⊢
        tauto }

/-- No directory at or under the monitored directory is moved, replaced or put back in the place
of the monitored directory, none of them lives on after its removal, no event for a new one is
lost, and `set_pid` keeps the monitored directory. A step that does not keep the paths can still
be undone by a later one, see `following_rename_undone`. -/
def KeepsPaths (maxQueued : ℕ) (w : World) : WatchAction → Prop
  | .mkdir dir name _ =>
      w.root <+: dir ++ [name] →
        dir ++ [name] ≠ w.root ∧
        (watchPath w.state.monitoredDir ((dir ++ [name]).drop w.root.length)).length < pathMax ∧
        (((w.tree.idAt dir).bind w.wdOf).isSome → w.queue.length < maxQueued)
  | .rmdir dir name held => w.root <+: dir ++ [name] → held = false
  | .rename dir name dir' name' _ =>
      ∀ x ∈ w.tree.nodes, dir ++ [name] <+: x.1 →
        ¬ w.root <+: x.1 ∧ ¬ w.root <+: PathTree.movePath (dir ++ [name]) (dir' ++ [name']) x.1
  | .setPid cwd _ => cwd = w.state.monitoredDir
  | _ => True

instance (maxQueued : ℕ) (w : World) : (a : WatchAction) → Decidable (KeepsPaths maxQueued w a)
  | .mkdir _ _ _ => inferInstanceAs (Decidable (_ → _ ∧ _ ∧ (_ → _)))
  | .rmdir _ _ _ => inferInstanceAs (Decidable (_ → _))
  | .rename _ _ _ _ _ => inferInstanceAs (Decidable (∀ x ∈ w.tree.nodes, _ → _ ∧ _))
  | .setPid cwd _ => inferInstanceAs (Decidable (cwd = w.state.monitoredDir))
  | .release _ | .reorder _ | .fileEvent _ _ _ | .read _ | .handle _ | .other _ =>
      inferInstanceAs (Decidable True)

/-- The watches that are left when a directory has been removed. -/
def World.survivors (w : World) (ino : Ino) (held : Bool) : List (ℤ × Ino) :=
  if held then w.watches else w.watches.filter (·.2 ≠ ino)

theorem World.survivors_sub {ino : Ino} {held : Bool} {x : ℤ × Ino}
    (hx : x ∈ w.survivors ino held) : x ∈ w.watches := by
  rw [World.survivors] at hx
  split at hx
  · exact hx
  · exact (List.mem_filter.mp hx).1

theorem World.mem_survivors {ino : Ino} {held : Bool} {x : ℤ × Ino} (hx : x ∈ w.watches)
    (hne : x.2 ≠ ino) : x ∈ w.survivors ino held := by
  rw [World.survivors]
  split
  · exact hx
  · exact List.mem_filter.mpr ⟨hx, by simpa using hne⟩

theorem Queued.dropUnlessHeld (h : Queued w w') (maxQueued : ℕ) (ino : Ino) (held : Bool) :
    Queued { w with watches := w.survivors ino held }
      (w'.dropUnlessHeld maxQueued ino held) := by
  obtain ⟨extra, rfl, hextra⟩ := h
  have hsame : Queued { w with watches := w.survivors ino held }
      { w with watches := w.survivors ino held, queue := w.queue ++ extra } :=
    ⟨extra, rfl, hextra⟩
  refine hsame.trans ?_
  cases held with
  | true => exact Queued.refl _
  | false => exact queued_dropWatch (w := { w with queue := w.queue ++ extra }) maxQueued ino

theorem following_rmdir {dir : Path} {name : DirName} {held : Bool} (h : Following w)
    (hgood : KeepsPaths maxQueued w (.rmdir dir name held))
    (hstep : watchStep maxQueued w (.rmdir dir name held) = some w') : Following w' := by
  simp only [watchStep] at hstep
  split at hstep
  · cases hstep
  next ino hino =>
  split at hstep <;> cases hstep
  next hleaf =>
  rw [PathTree.idAt_eq_some_iff] at hino
  have hraise := queued_raise (w := { w with tree := w.tree.remove _ hleaf }) maxQueued dir
    (inDelete ||| inIsdir) name.text (by decide)
  have hqueued : Queued { w with tree := w.tree.remove _ hleaf, watches := w.survivors ino held }
      _ := hraise.dropUnlessHeld maxQueued ino held
  refine h.shrink hqueued (fun rel ino' hmem => ((PathTree.mem_remove hleaf).mp hmem).1)
    (fun x hx => w.survivors_sub hx) (fun rel x hx hmem => ?_) (fun rel x hx hmem => ?_)
  · refine (PathTree.mem_remove hleaf).mpr ⟨hmem, fun heq => ?_⟩
    -- a directory under the monitored directory loses its watch
    obtain rfl : held = false := hgood ⟨rel, heq⟩
    have hne : x.2 ≠ ino := by simpa [World.survivors] using (List.mem_filter.mp hx).2
    exact hne (w.tree.id_unique (heq ▸ hmem) hino)
  · obtain ⟨hmem, hne⟩ := (PathTree.mem_remove hleaf).mp hmem
    refine w.mem_survivors hx ?_
    rintro rfl
    exact hne (w.tree.path_unique hmem hino)

/-- `rename` moves directories with their watches; only a directory replaced may lose its watch. -/
theorem rename_spec {dir dir' : Path} {name name' : DirName} {held : Bool}
    (hstep : watchStep maxQueued w (.rename dir name dir' name' held) = some w') :
    ∃ (hmove : w.tree.CanMove (dir ++ [name]) (dir' ++ [name'])) (watches : List (ℤ × Ino)),
      Queued { w with tree := w.tree.move _ _ hmove, watches := watches } w' ∧
      (∀ x ∈ watches, x ∈ w.watches) ∧
      ∀ x ∈ w.watches, (dir' ++ [name'], x.2) ∉ w.tree.nodes → x ∈ watches := by
  simp only [watchStep] at hstep
  split at hstep
  next hmove =>
    have hmoved : Queued { w with tree := w.tree.move _ _ hmove } _ :=
      (queued_raise maxQueued dir (inMovedFrom ||| inIsdir) name.text (by decide)).trans
        (queued_raise maxQueued dir' (inMovedTo ||| inIsdir) name'.text (by decide))
    split at hstep <;> cases hstep
    · exact ⟨hmove, w.watches, hmoved, fun _ hx => hx, fun _ hx _ => hx⟩
    next ino hino =>
      rw [PathTree.idAt_eq_some_iff] at hino
      refine ⟨hmove, w.survivors ino held, hmoved.dropUnlessHeld maxQueued ino held,
        fun _ hx => w.survivors_sub hx, fun x hx hold => w.mem_survivors hx ?_⟩
      rintro rfl
      exact hold hino
  next => cases hstep

theorem following_rename {dir dir' : Path} {name name' : DirName} {held : Bool} (h : Following w)
    (hgood : KeepsPaths maxQueued w (.rename dir name dir' name' held))
    (hstep : watchStep maxQueued w (.rename dir name dir' name' held) = some w') :
    Following w' := by
  obtain ⟨hmove, watches, hqueued, hsub, hsurvive⟩ := rename_spec hstep
  have hnew : ∀ {rel : Path}, w.root ++ rel ≠ dir' ++ [name'] := fun {rel} heq => by
    obtain ⟨ino, hmem⟩ := PathTree.mem_paths_iff.mp hmove.1
    have := (hgood _ hmem List.prefix_rfl).2
    rw [PathTree.movePath_self] at this
    exact this ⟨rel, heq⟩
  -- what is under the monitored directory stays where it is, and nothing joins it
  have hkept : ∀ rel ino, (w.root ++ rel, ino) ∈ w.tree.nodes →
      (w.root ++ rel, ino) ∈ (w.tree.move _ _ hmove).nodes := by
    intro rel ino hmem
    have hstay : ¬ dir ++ [name] <+: w.root ++ rel := fun hle =>
      (hgood _ hmem hle).1 (List.prefix_append _ _)
    exact (PathTree.mem_move hmove).mpr
      ⟨_, hmem, hnew, PathTree.movePath_of_not_below hstay⟩
  have hnodes : ∀ rel ino, (w.root ++ rel, ino) ∈ (w.tree.move _ _ hmove).nodes →
      (w.root ++ rel, ino) ∈ w.tree.nodes := by
    intro rel ino hmem
    obtain ⟨r, hr, -, heq⟩ := (PathTree.mem_move hmove).mp hmem
    by_cases hle : dir ++ [name] <+: r
    · exact absurd (heq ▸ List.prefix_append _ _) (hgood _ hr hle).2
    · rw [PathTree.movePath_of_not_below hle] at heq
      exact heq ▸ hr
  refine h.shrink hqueued hnodes hsub (fun rel x _ => hkept rel x.2) (fun rel x hx hmem => ?_)
  exact hsurvive x hx fun hold => hnew (w.tree.path_unique (hnodes rel _ hmem) hold)

/-- A `rename` that is undone at once does no harm, wherever it moves a directory. -/
theorem following_rename_undone {w'' : World} {dir dir' : Path} {name name' : DirName}
    {held held' : Bool} (h : Following w) (hfree : dir' ++ [name'] ∉ w.tree.paths)
    (hstep : watchStep maxQueued w (.rename dir name dir' name' held) = some w')
    (hback : watchStep maxQueued w' (.rename dir' name' dir name held') = some w'') :
    Following w'' := by
  obtain ⟨hmove, watches, ⟨extra, rfl, hextra⟩, hsub, hsurvive⟩ := rename_spec hstep
  obtain ⟨hmove', watches', hqueued, hsub', hsurvive'⟩ := rename_spec hback
  have hnodes : ∀ rel ino, (w.root ++ rel, ino) ∈ ((w.tree.move _ _ hmove).move _ _ hmove').nodes ↔
      (w.root ++ rel, ino) ∈ w.tree.nodes := fun _ _ => PathTree.mem_move_move hmove hmove' hfree
  have hboth : Queued { w with
      tree := (w.tree.move _ _ hmove).move _ _ hmove', watches := watches' } w'' :=
    Queued.trans ⟨extra, rfl, hextra⟩ hqueued
  refine h.shrink hboth (fun rel ino => (hnodes rel ino).mp) (fun x hx => hsub x (hsub' x hx))
    (fun rel x _ => (hnodes rel x.2).mpr) (fun _ x hx _ => ?_)
  -- nothing was replaced, neither there nor back
  have hthere : x ∈ watches :=
    hsurvive x hx fun hold => hfree (PathTree.mem_paths_of_mem hold)
  exact hsurvive' x hthere (PathTree.not_mem_move hmove)

/-- A new directory is found if it is announced, alone or with one above it. -/
theorem Following.grow {tree : PathTree DirName Ino} {new : Path} {ino : Ino}
    {extra : List InotifyEvent} (h : Following w)
    (hadd : ∀ r j, (r, j) ∈ tree.nodes ↔ r = new ∧ j = ino ∨ (r, j) ∈ w.tree.nodes)
    (hextra : ∀ event ∈ extra, ∃ rel, w.Announces event rel ∧
      (watchPath w.state.monitoredDir rel).length < pathMax)
    (hnew : ∀ rel, w.root ++ rel = new → (watchPath w.state.monitoredDir rel).length < pathMax ∧
      ∃ event ∈ w.pending ++ extra, ∃ above, w.Announces event above ∧ above <+: rel) :
    Following { w with tree := tree, queue := w.queue ++ extra } where
  watch_lt := h.watch_lt
  entry_lt := h.entry_lt
  live x hx := by
    obtain ⟨rel, hpath, hmem⟩ := h.live x hx
    exact ⟨rel, hpath, (hadd _ _).mpr (Or.inr hmem)⟩
  fits rel hrel := by
    -- a directory of the tree is the new one or an old one
    obtain ⟨j, hmem⟩ := PathTree.mem_paths_iff.mp hrel
    rcases (hadd _ _).mp hmem with ⟨heq, -⟩ | hold
    · exact (hnew rel heq).1
    · exact h.fits rel (PathTree.mem_paths_of_mem hold)
  announced event hevent hisNew := by
    rw [World.pending, ← List.append_assoc] at hevent
    rcases List.mem_append.mp hevent with hold | hevent
    · exact h.announced event hold hisNew
    · exact hextra event hevent
  covered rel j hmem := by
    rw [World.pending, ← List.append_assoc]
    rcases (hadd _ _).mp hmem with ⟨heq, -⟩ | hold
    · exact Or.inr (hnew rel heq).2
    · refine (h.covered rel j hold).imp id ?_
      rintro ⟨event, hevent, habove⟩
      exact ⟨event, List.mem_append_left _ hevent, habove⟩

/-- A new directory is announced by the watch of its parent, or its parent was announced. -/
theorem following_mkdir {dir : Path} {name : DirName} {ino : Ino} (h : Following w)
    (hgood : KeepsPaths maxQueued w (.mkdir dir name ino))
    (hstep : watchStep maxQueued w (.mkdir dir name ino) = some w') : Following w' := by
  simp only [watchStep] at hstep
  split at hstep <;> cases hstep
  next hpossible =>
  obtain ⟨hdir, hfresh, hino, -⟩ := hpossible
  obtain ⟨parent, hparent⟩ := PathTree.mem_paths_iff.mp hdir
  have hadd := fun r j => PathTree.mem_add (q := r) (j := j) hdir hfresh hino
  have hat : (w.tree.add dir name ino hdir hfresh hino).idAt dir = some parent :=
    PathTree.idAt_eq_some_iff.mpr ((hadd _ _).mpr (Or.inr hparent))
  have hat₀ : w.tree.idAt dir = some parent := PathTree.idAt_eq_some_iff.mpr hparent
  have hdrop (rel : Path) : (w.root ++ rel).drop w.root.length = rel := List.drop_left
  rw [World.raise, hat, Option.bind_some]
  cases hwd : World.wdOf { w with tree := w.tree.add dir name ino hdir hfresh hino } parent with
  | some wd =>
    -- the parent is watched, and so it is under the monitored directory
    obtain ⟨rel, hpath, hmem⟩ := h.live _ (World.mem_of_wdOf hwd)
    obtain rfl := w.tree.path_unique hmem hparent
    have hwatched : ((w.tree.idAt (w.root ++ rel)).bind w.wdOf).isSome := by
      rw [hat₀, Option.bind_some]
      exact Option.isSome_of_eq_some hwd
    have hunder : w.root <+: w.root ++ rel ++ [name] := ⟨rel ++ [name], by simp⟩
    obtain ⟨-, hlength, hroom⟩ := hgood hunder
    rw [List.append_assoc, hdrop] at hlength
    have hmask : Mask.has (inCreate ||| inIsdir) inIsdir = true ∧
        Mask.has (inCreate ||| inIsdir) inCreate = true := by decide
    have hannounces : w.Announces { wd, mask := inCreate ||| inIsdir, name := name.text }
        (rel ++ [name]) :=
      ⟨hmask, rel, name, rfl, rfl, hpath⟩
    simp only [World.notify, if_pos (hroom hwatched)]
    refine h.grow hadd (fun event hevent => ?_) (fun rel' heq => ?_)
    · rw [List.mem_singleton.mp hevent]
      exact ⟨_, hannounces, hlength⟩
    · obtain rfl : rel' = rel ++ [name] := by
        rwa [List.append_assoc, List.append_cancel_left_eq] at heq
      exact ⟨hlength, _, List.mem_append_right _ (List.mem_singleton_self _), _, hannounces,
        List.prefix_rfl⟩
  | none =>
    suffices Following { w with tree := _, queue := w.queue ++ [] } by simpa using this
    refine h.grow hadd (by simp) (fun rel heq => ?_)
    · -- the parent is not watched, and the event that announced it leads to the new directory too
      have hunder : w.root <+: dir ++ [name] := ⟨rel, heq⟩
      obtain ⟨hne, hlength, -⟩ := hgood hunder
      rw [← heq, hdrop] at hlength
      rcases List.eq_nil_or_concat rel with rfl | ⟨rel, last, rfl⟩
      · exact absurd (by simpa using heq.symm) hne
      · rw [List.concat_eq_append, ← List.append_assoc] at heq
        obtain ⟨rfl, -⟩ := List.append_inj' heq rfl
        refine ⟨by simpa using hlength, ?_⟩
        rcases h.covered rel parent hparent with hwatched | ⟨event, hevent, above, habove, hle⟩
        · exact absurd hwatched (World.not_watched_of_wdOf hwd)
        · rw [List.concat_eq_append, List.append_nil]
          exact ⟨event, hevent, above, habove, hle.trans (List.prefix_append _ _)⟩

/-! ## Adding watches -/

/-- Watches have been added, and nothing else has changed. -/
structure Extends (w w' : World) : Prop where
  tree : w'.tree = w.tree
  pending : w'.pending = w.pending
  monitoredDir : w'.state.monitoredDir = w.state.monitoredDir
  watches : ∀ x ∈ w.watches, x ∈ w'.watches
  watchList : w.state.watchList <+: w'.state.watchList

theorem Extends.refl (w : World) : Extends w w where
  tree := rfl
  pending := rfl
  monitoredDir := rfl
  watches _ h := h
  watchList := List.prefix_rfl

theorem Extends.trans {w'' : World} (h : Extends w w') (h' : Extends w' w'') : Extends w w'' where
  tree := h'.tree.trans h.tree
  pending := h'.pending.trans h.pending
  monitoredDir := h'.monitoredDir.trans h.monitoredDir
  watches x hx := h'.watches x (h.watches x hx)
  watchList := h.watchList.trans h'.watchList

theorem Extends.root (h : Extends w w') : w'.root = w.root := by
  rw [World.root, World.root, h.monitoredDir]

theorem Extends.fits (h : Extends w w') (hfits : w.Fits) : w'.Fits := by
  rw [World.Fits, h.root, h.tree, h.monitoredDir]
  exact hfits

theorem Extends.watched (h : Extends w w') {ino : Ino} (hw : w.Watched ino) : w'.Watched ino := by
  obtain ⟨wd, hwd⟩ := hw
  exact ⟨wd, h.watches _ hwd⟩

theorem storeWatch_of_some {path : Text} {ino : Ino} {wd : ℤ} (h : w.wdOf ino = some wd) :
    w.storeWatch path ino =
      { w with state := { w.state with watchList := w.state.watchList ++ [{ wd, path }] } } := by
  simp [World.storeWatch, World.inotifyAddWatch, h]

theorem storeWatch_of_none {path : Text} {ino : Ino} (h : w.wdOf ino = none) :
    w.storeWatch path ino =
      { w with
        watches := w.watches ++ [(w.nextWd, ino)]
        nextWd := w.nextWd + 1
        state :=
          { w.state with watchList := w.state.watchList ++ [{ wd := w.nextWd, path }] } } := by
  simp [World.storeWatch, World.inotifyAddWatch, h]

theorem extends_storeWatch (path : Text) (ino : Ino) : Extends w (w.storeWatch path ino) := by
  cases hwd : w.wdOf ino with
  | some wd =>
    rw [storeWatch_of_some hwd]
    exact ⟨rfl, rfl, rfl, fun _ h => h, List.prefix_append _ _⟩
  | none =>
    rw [storeWatch_of_none hwd]
    exact ⟨rfl, rfl, rfl, fun _ h => List.mem_append_left _ h, List.prefix_append _ _⟩

theorem watched_storeWatch (path : Text) (ino : Ino) : (w.storeWatch path ino).Watched ino := by
  cases hwd : w.wdOf ino with
  | some wd =>
    rw [storeWatch_of_some hwd]
    exact ⟨wd, w.mem_of_wdOf hwd⟩
  | none =>
    rw [storeWatch_of_none hwd]
    exact ⟨w.nextWd, by simp⟩

/-- A new watch is listed under the current path of its directory, and an old one keeps its
entry. -/
theorem listed_storeWatch {rel : Path} {ino : Ino} (h : Listed w)
    (hmem : (w.root ++ rel, ino) ∈ w.tree.nodes) :
    Listed (w.storeWatch (watchPath w.state.monitoredDir rel) ino) := by
  cases hwd : w.wdOf ino with
  | some wd =>
    rw [storeWatch_of_some hwd]
    exact {
      watch_lt := h.watch_lt
      entry_lt := fun info hinfo => by
        rcases List.mem_append.mp hinfo with hinfo | hinfo
        · exact h.entry_lt info hinfo
        · rw [List.mem_singleton.mp hinfo]
          exact h.watch_lt _ (w.mem_of_wdOf hwd)
      live := fun x hx => by
        obtain ⟨rel', hpath, hmem'⟩ := h.live x hx
        exact ⟨rel', getWatchPath_mono (List.prefix_append _ _) hpath, hmem'⟩ }
  | none =>
    rw [storeWatch_of_none hwd]
    have hlast : getWatchPath (w.state.watchList ++
        [{ wd := w.nextWd, path := watchPath w.state.monitoredDir rel }]) w.nextWd =
          some (watchPath w.state.monitoredDir rel) := by
      -- the descriptor is a new one, so that no earlier entry has it
      have hnone : w.state.watchList.find? (·.wd = w.nextWd) = none := by
        refine List.find?_eq_none.mpr fun info hinfo => ?_
        have := h.entry_lt info hinfo
        simpa using this.ne
      simp [getWatchPath, List.find?_append, hnone]
    exact {
      watch_lt := fun x hx => by
        rcases List.mem_append.mp hx with hx | hx
        · exact (h.watch_lt x hx).trans (Int.lt_succ _)
        · rw [List.mem_singleton.mp hx]
          exact Int.lt_succ _
      entry_lt := fun info hinfo => by
        rcases List.mem_append.mp hinfo with hinfo | hinfo
        · exact (h.entry_lt info hinfo).trans (Int.lt_succ _)
        · rw [List.mem_singleton.mp hinfo]
          exact Int.lt_succ _
      live := fun x hx => by
        rcases List.mem_append.mp hx with hx | hx
        · obtain ⟨rel', hpath, hmem'⟩ := h.live x hx
          exact ⟨rel', getWatchPath_mono (List.prefix_append _ _) hpath, hmem'⟩
        · rw [List.mem_singleton.mp hx]
          exact ⟨rel, hlast, hmem⟩ }

/-- What one call of `add_inotify_watch_recursive` leaves behind: the list still fits the tree, and
every directory less than `depth` levels below `rel` is watched. -/
structure Scanned (w : World) (rel : Path) (depth : ℕ) (w' : World) : Prop where
  added : Extends w w'
  listed : Listed w'
  watched : ∀ sub ino, (w.root ++ rel ++ sub, ino) ∈ w.tree.nodes → sub.length < depth →
    w'.Watched ino

/-- The loop over the entries of a directory. -/
theorem scanned_children {fuel : ℕ} (rel : Path) (names : List DirName)
    (ih : ∀ {w : World} (rel : Path), Listed w → w.Fits → Scanned w rel fuel
      (w.addInotifyWatchRecursive fuel (watchPath w.state.monitoredDir rel)))
    {w₀ w : World} (hw : Extends w₀ w) (hlisted : Listed w)
    (hfits : w₀.Fits) (hnames : ∀ name ∈ names, w₀.root ++ rel ++ [name] ∈ w₀.tree.paths) :
    let w' := names.foldl (fun w name => w.addInotifyWatchRecursive fuel
      (snprintf pathMax (joinPath (watchPath w₀.state.monitoredDir rel) name.text))) w
    Extends w w' ∧ Listed w' ∧ ∀ name ∈ names, ∀ sub ino,
      (w₀.root ++ rel ++ name :: sub, ino) ∈ w₀.tree.nodes → sub.length < fuel →
        w'.Watched ino := by
  induction names generalizing w with
  | nil => exact ⟨Extends.refl w, hlisted, by simp⟩
  | cons name names ihNames =>
    -- the path of the entry is its path in the list
    have hpath : snprintf pathMax (joinPath (watchPath w₀.state.monitoredDir rel) name.text) =
        watchPath w.state.monitoredDir (rel ++ [name]) := by
      rw [hw.monitoredDir, ← watchPath_concat]
      refine snprintf_of_fits (hfits _ ?_)
      rw [← List.append_assoc]
      exact hnames name List.mem_cons_self
    have hscan := ih (rel ++ [name]) hlisted (hw.fits hfits)
    simp only [List.foldl_cons, hpath]
    obtain ⟨hext, hlisted', hrest⟩ := ihNames (hw.trans hscan.added) hscan.listed
      fun name' hname' => hnames name' (List.mem_cons_of_mem _ hname')
    refine ⟨hscan.added.trans hext, hlisted', fun name' hname' sub ino hmem hlt => ?_⟩
    rcases List.mem_cons.mp hname' with rfl | hname'
    · refine hext.watched (hscan.watched sub ino ?_ hlt)
      rw [hw.root, hw.tree]
      simpa using hmem
    · exact hrest name' hname' sub ino hmem hlt

/-- `add_inotify_watch_recursive` watches everything that it finds. -/
theorem scanned_addInotifyWatchRecursive (fuel : ℕ) (rel : Path) (h : Listed w) (hfits : w.Fits) :
    Scanned w rel fuel (w.addInotifyWatchRecursive fuel (watchPath w.state.monitoredDir rel)) := by
  induction fuel generalizing w rel with
  | zero => exact ⟨Extends.refl w, h, by simp⟩
  | succ fuel ih =>
    rw [World.addInotifyWatchRecursive, resolve_watchPath, ← World.root]
    cases hino : w.tree.idAt (w.root ++ rel) with
    | none =>
      refine ⟨Extends.refl w, h, fun sub ino hmem _ => ?_⟩
      exact absurd (PathTree.mem_above (PathTree.mem_paths_of_mem hmem) (List.prefix_append _ _))
        (PathTree.idAt_eq_none_iff.mp hino)
    | some ino =>
      rw [PathTree.idAt_eq_some_iff] at hino
      -- the directory itself gets its watch before its subdirectories
      have hstore := extends_storeWatch (w := w) (watchPath w.state.monitoredDir rel) ino
      obtain ⟨hext, hlisted, hwatched⟩ := scanned_children rel (w.tree.children (w.root ++ rel))
        (fun rel h hfits => ih rel h hfits) hstore (listed_storeWatch h hino) hfits
        fun name hname => PathTree.mem_children.mp hname
      refine ⟨hstore.trans hext, hlisted, fun sub ino' hmem hlt => ?_⟩
      cases sub with
      | nil =>
        obtain rfl : ino = ino' := w.tree.id_unique hino (by simpa using hmem)
        exact hext.watched (watched_storeWatch _ _)
      | cons name sub =>
        have hname : name ∈ w.tree.children (w.root ++ rel) := by
          refine PathTree.mem_children.mpr
            (PathTree.mem_above (PathTree.mem_paths_of_mem hmem) ⟨sub, by simp⟩)
        exact hwatched name hname sub ino' hmem (by simpa using hlt)

/-- The depth of the scan is enough to watch everything below. -/
theorem Scanned.all_watched {rel : Path} (h : Scanned w rel w.scanDepth w') {sub : Path} {ino : Ino}
    (hmem : (w.root ++ rel ++ sub, ino) ∈ w.tree.nodes) : w'.Watched ino := by
  refine h.watched sub ino hmem ?_
  have := PathTree.length_le_depth (PathTree.mem_paths_of_mem hmem)
  rw [List.length_append] at this
  rw [World.scanDepth]
  omega

/-! ## Handling an event -/

/-- Only the event of a new directory makes the daemon scan. -/
theorem isNewDir_of_addWatch {isText : Text → Bool} {watchList : List WatchInfo}
    {event : InotifyEvent} {path : Text}
    (h : eventEffect isText watchList event = .addWatch path) : event.IsNewDir := by
  have hdir : event.mask.has inIsdir = true := by
    by_contra hfile
    exact eventEffect_ne_addWatch (by simpa using hfile) h
  refine ⟨hdir, ?_⟩
  by_contra hcreate
  simp only [eventEffect, hdir, hcreate] at h
  split at h
  · cases h
  · split at h <;> simp at h

/-- The event of a new directory makes the daemon scan the directory that it announces. -/
theorem eventEffect_of_announces {isText : Text → Bool} {event : InotifyEvent} {rel : Path}
    (h : w.Announces event rel) (hlength : (watchPath w.state.monitoredDir rel).length < pathMax) :
    eventEffect isText w.state.watchList event =
      .addWatch (watchPath w.state.monitoredDir rel) := by
  obtain ⟨⟨hdir, hcreate⟩, dir, name, rfl, hname, hpath⟩ := h
  rw [watchPath_concat] at hlength ⊢
  have hne : name.text ≠ [] := name.isDirName.1
  simp [eventEffect, hname, hne, hpath, snprintf_of_fits hlength, hdir, hcreate]

/-- An event announces one directory. -/
theorem World.Announces.unique {event : InotifyEvent} {rel rel' : Path}
    (h : w.Announces event rel) (h' : w.Announces event rel') : rel = rel' := by
  obtain ⟨-, dir, name, rfl, hname, hpath⟩ := h
  obtain ⟨-, dir', name', rfl, hname', hpath'⟩ := h'
  have hdir : dir = dir' := watchPath_inj (Option.some.inj (hpath.symm.trans hpath'))
  have hsame : name = name' := by
    cases name
    cases name'
    simp_all
  rw [hdir, hsame]

/-- The directory that the event announces is scanned, and all that was waiting for it is
watched. -/
theorem following_scan {event : InotifyEvent} {rest : List InotifyEvent} {rel : Path}
    (h : Following w) (hbuffer : w.buffer = event :: rest) (hannounces : w.Announces event rel)
    (hscan : Scanned { w with buffer := rest } rel w.scanDepth w') : Following w' := by
  have hext := hscan.added
  -- the event is handled, and all others wait
  have hpending : w.pending = event :: w'.pending := by
    rw [hext.pending, World.pending, World.pending, hbuffer, List.cons_append]
  have hroot : w'.root = w.root := hext.root
  have htree : w'.tree = w.tree := hext.tree
  exact {
    toListed := hscan.listed
    fits := hext.fits h.fits
    announced := fun event' hevent' hnew => by
      obtain ⟨rel', hrel', hlength⟩ :=
        h.announced event' (by rw [hpending]; exact List.mem_cons_of_mem _ hevent') hnew
      exact ⟨rel', hrel'.mono hext.watchList hext.monitoredDir, by rwa [hext.monitoredDir]⟩
    covered := fun rel' ino hmem => by
      rw [hroot, htree] at hmem
      rcases h.covered rel' ino hmem with hwatched | ⟨event', hevent', above, habove, hle⟩
      · exact Or.inl (hext.watched hwatched)
      rw [hpending] at hevent'
      rcases List.mem_cons.mp hevent' with rfl | hevent'
      -- the directory was announced by this event, so that the scan has reached it
      · obtain rfl := hannounces.unique habove
        obtain ⟨sub, rfl⟩ := hle
        rw [← List.append_assoc] at hmem
        exact Or.inl (hscan.all_watched hmem)
      · exact Or.inr ⟨event', hevent', above, habove.mono hext.watchList hext.monitoredDir, hle⟩ }

theorem following_handle {isText : Text → Bool} (h : Following w)
    (hstep : watchStep maxQueued w (.handle isText) = some w') : Following w' := by
  simp only [watchStep] at hstep
  split at hstep <;> cases hstep
  next event rest hbuffer =>
  by_cases hnew : event.IsNewDir
  · obtain ⟨rel, hannounces, hlength⟩ := h.announced event (by simp [World.pending, hbuffer]) hnew
    have heffect : eventEffect isText w.state.watchList event = _ :=
      eventEffect_of_announces hannounces hlength
    simp only [World.handleEvent, heffect]
    have hlisted : Listed { w with buffer := rest } := ⟨h.watch_lt, h.entry_lt, h.live⟩
    exact following_scan h hbuffer hannounces
      (scanned_addInotifyWatchRecursive _ rel hlisted h.fits)
  · -- what the watches depend on stays the same
    have hpending (event' : InotifyEvent) (hnew' : event'.IsNewDir) :
        event' ∈ rest ++ w.queue ↔ event' ∈ w.pending := by
      have hne : event' ≠ event := fun heq => hnew (heq ▸ hnew')
      rw [World.pending, hbuffer, List.cons_append, List.mem_cons]
      exact (or_iff_right hne).symm
    cases heffect : eventEffect isText w.state.watchList event with
    | addWatch path => exact absurd (isNewDir_of_addWatch heffect) hnew
    | skip =>
      simp only [World.handleEvent, heffect]
      exact h.congr rfl rfl rfl rfl rfl hpending
    | enqueue path =>
      simp only [World.handleEvent, heffect]
      exact h.congr rfl rfl rfl rfl rfl hpending

/-! ## Runs -/

/-- What the watches and the events under way say about the tree is kept by every step that moves
no directory. -/
theorem following_step {a : WatchAction} (h : Following w) (hgood : KeepsPaths maxQueued w a)
    (hstep : watchStep maxQueued w a = some w') : Following w' := by
  cases a with
  | mkdir dir name ino => exact following_mkdir h hgood hstep
  | rmdir dir name held => exact following_rmdir h hgood hstep
  | rename dir name dir' name' held => exact following_rename h hgood hstep
  | release ino =>
    simp only [watchStep] at hstep
    split at hstep <;> cases hstep
    next hgone =>
    -- no live watch is left for a directory that is gone
    refine h.shrink (queued_dropWatch maxQueued ino) (fun _ _ hmem => hmem)
      (fun x hx => (List.mem_filter.mp hx).1) (fun _ _ _ hmem => hmem) (fun rel x hx hmem => ?_)
    refine List.mem_filter.mpr ⟨hx, ?_⟩
    simpa using fun heq : x.2 = ino => hgone (heq ▸ PathTree.mem_ids_of_mem hmem)
  | reorder nodes =>
    simp only [watchStep] at hstep
    split at hstep <;> cases hstep
    next hperm =>
    exact h.shrink (Queued.refl _) (fun _ _ => (PathTree.mem_reorder hperm).mp) (fun _ hx => hx)
      (fun _ _ _ => (PathTree.mem_reorder hperm).mpr) (fun _ _ hx _ => hx)
  | fileEvent dir mask name =>
    simp only [watchStep] at hstep
    split at hstep <;> cases hstep
    next hfile =>
    exact h.shrink (queued_raise maxQueued dir mask name fun hnew => hfile hnew.1)
      (fun _ _ hmem => hmem) (fun _ hx => hx) (fun _ _ _ hmem => hmem) (fun _ _ hx _ => hx)
  | read count =>
    simp only [watchStep] at hstep
    split at hstep <;> cases hstep
    next hbuffer =>
    refine h.congr rfl rfl rfl rfl rfl fun event _ => ?_
    rw [World.pending, World.pending, hbuffer, List.nil_append, List.take_append_drop]
  | handle isText => exact following_handle h hstep
  | setPid cwd pid =>
    simp only [watchStep] at hstep
    split at hstep <;> cases hstep
    have hcwd : cwd = w.state.monitoredDir := hgood
    exact h.congr rfl rfl rfl rfl hcwd fun _ _ => Iff.rfl
  | other state =>
    simp only [watchStep] at hstep
    split at hstep <;> cases hstep
    next hsame => exact h.congr rfl rfl rfl hsame.2.2 hsame.2.1 fun _ _ => Iff.rfl

/-- After a scan of the monitored directory everything is watched. -/
theorem following_of_scanned (h : Scanned w [] w.scanDepth w') (hpending : w.pending = [])
    (hfits : w.Fits) : Following w' where
  toListed := h.listed
  fits := h.added.fits hfits
  announced event hevent := by
    rw [h.added.pending, hpending] at hevent
    cases hevent
  covered rel ino hmem := by
    rw [h.added.root, h.added.tree] at hmem
    exact Or.inl (h.all_watched (by simpa using hmem))

/-- After `init_inotify` the watches are the tree. -/
theorem following_initInotify {tree : PathTree DirName Ino} {monitoredDir : Text}
    {monitoredPid : ℤ} {inotifyFd : ℕ}
    (hfits : (World.unwatched tree monitoredDir monitoredPid inotifyFd).Fits)
    (hinit : initInotify tree monitoredDir monitoredPid inotifyFd = some w) : Following w := by
  simp only [initInotify, Option.ite_none_right_eq_some, Option.some.injEq] at hinit
  obtain ⟨-, hw⟩ := hinit
  have hlisted : Listed (World.unwatched tree monitoredDir monitoredPid inotifyFd) :=
    ⟨by simp [World.unwatched], by simp [World.unwatched, MonitorState.fresh],
      by simp [World.unwatched]⟩
  have hscan : Scanned (World.unwatched tree monitoredDir monitoredPid inotifyFd) [] _ w :=
    hw ▸ scanned_addInotifyWatchRecursive _ [] hlisted hfits
  exact following_of_scanned hscan rfl hfits

/-- In every run in which all directories at or under the monitored directory keep their paths,
whenever all events have been processed `watch_list` maps the live watch descriptors to the
directories at or under the monitored directory. -/
theorem watchesTree_of_run {tree : PathTree DirName Ino} {monitoredDir : Text} {monitoredPid : ℤ}
    {inotifyFd : ℕ} {w₀ : World} {tr : List (World × WatchAction)}
    (hfits : (World.unwatched tree monitoredDir monitoredPid inotifyFd).Fits)
    (hinit : initInotify tree monitoredDir monitoredPid inotifyFd = some w₀)
    (hrun : Run (watchStep maxQueued) w₀ tr w) (hgood : StepsMeet (KeepsPaths maxQueued) tr)
    (hquiet : w.Quiet) : w.WatchesTree :=
  (hrun.invariant (following_initInotify hfits hinit)
    (fun _ _ _ h hgood hstep => following_step h hgood hstep) hgood).watchesTree hquiet

/-- The directories of a tree are those of its list. -/
theorem fits_of_paths
    (h : ∀ p ∈ w.tree.paths, (watchPath w.state.monitoredDir (p.drop w.root.length)).length <
      pathMax) : w.Fits := by
  intro rel hrel
  simpa using h _ hrel

/-! ## What `set_pid` and `rename` do -/

/-- `set_pid` keeps the watches right exactly if the same directories are at or under the new
directory as at or under the old one. -/
theorem watchesTree_setPid_iff {cwd : Text} {pid : ℤ} (h : w.WatchesTree)
    (hstep : watchStep maxQueued w (.setPid cwd pid) = some w') :
    w'.WatchesTree ↔ ∀ x ∈ w.tree.nodes, resolve cwd <+: x.1 ↔ w.root <+: x.1 := by
  simp only [watchStep] at hstep
  split at hstep <;> cases hstep
  constructor
  -- the watches are the same before and after
  · rintro h' ⟨dir, ino⟩ hx
    constructor
    · intro hunder
      obtain ⟨wd, path, hwd, hpath, rfl⟩ := h'.complete dir ino hx hunder
      exact (h.current _ hwd path hpath).2
    · intro hunder
      obtain ⟨wd, path, hwd, hpath, rfl⟩ := h.complete dir ino hx hunder
      exact (h'.current _ hwd path hpath).2
  · intro hsame
    constructor
    · intro x hx path hpath
      obtain ⟨hmem, hunder⟩ := h.current x hx path hpath
      exact ⟨hmem, (hsame _ hmem).mpr hunder⟩
    · intro dir ino hmem hunder
      exact h.complete dir ino hmem ((hsame _ hmem).mp hunder)

/-- A `rename` keeps the watches right only if no directory at or under the monitored directory
has been moved: in, out or within. -/
theorem keepsPaths_of_rename {dir dir' : Path} {name name' : DirName} {held : Bool}
    (h : w.WatchesTree)
    (hstep : watchStep maxQueued w (.rename dir name dir' name' held) = some w')
    (h' : w'.WatchesTree) : KeepsPaths maxQueued w (.rename dir name dir' name' held) := by
  obtain ⟨hmove, watches, ⟨extra, rfl, -⟩, hsub, hsurvive⟩ := rename_spec hstep
  rintro ⟨r, ino⟩ hr hle
  obtain ⟨s, rfl⟩ := hle
  rw [PathTree.movePath_append]
  have hdistinct : dir ++ [name] ++ s ≠ dir' ++ [name'] ++ s := fun heq =>
    hmove.2.2.2.1 (List.append_cancel_right heq ▸ List.prefix_rfl)
  have hnew : dir ++ [name] ++ s ≠ dir' ++ [name'] := fun heq =>
    hmove.2.2.2.1 ⟨s, heq⟩
  have hmoved : (dir' ++ [name'] ++ s, ino) ∈ (w.tree.move _ _ hmove).nodes :=
    (PathTree.mem_move hmove).mpr ⟨_, hr, hnew, PathTree.movePath_append _ _ _⟩
  constructor
  · -- its watch has gone with it, and its path in the list is the old one
    intro hunder
    obtain ⟨wd, path, hwd, hpath, hresolve⟩ := h.complete _ ino hr hunder
    have hkept : (wd, ino) ∈ watches :=
      hsurvive _ hwd fun hold => hnew (w.tree.path_unique hr hold)
    have hold := (h'.current _ hkept path hpath).1
    rw [hresolve] at hold
    exact hdistinct ((w.tree.move _ _ hmove).path_unique hold hmoved)
  · -- it has no watch, or one with the old path
    intro hunder
    obtain ⟨wd, path, hwd, hpath, hresolve⟩ := h'.complete _ ino hmoved hunder
    have hold := (h.current _ (hsub _ hwd) path hpath).1
    rw [hresolve] at hold
    exact hdistinct (w.tree.path_unique hr hold)

/-! ## Two runs -/

/-- `max_queued_events`, as the kernel sets it. -/
def maxQueuedEvents : ℕ := 16384

/-- A directory name of one character. -/
def shortName (c : Char) (h : IsDirName [c]) : DirName :=
  ⟨[c], h⟩

/-- The directories `/m`, `/m/a` and `/x`. -/
def smallTree : PathTree DirName Ino :=
  (((PathTree.single 1).add [] (shortName 'm' (by decide)) 2 (by decide) (by decide)
    (by decide)).add [shortName 'm' (by decide)] (shortName 'a' (by decide)) 3 (by decide)
    (by decide) (by decide)).add [] (shortName 'x' (by decide)) 4 (by decide) (by decide)
    (by decide)

/-- The daemon is started in `/m`. -/
def smallStart : Option World :=
  initInotify smallTree ['/', 'm'] 77 3

private theorem smallStart_isSome : smallStart.isSome = true := by
  decide +kernel

/-- `/m/b` and `/m/b/c` are created and then found, `/x` is renamed, `/m/a` is removed. -/
def newDirs : List WatchAction :=
  let m := shortName 'm' (by decide)
  let b := shortName 'b' (by decide)
  [.mkdir [m] b 5, .mkdir [m, b] (shortName 'c' (by decide)) 6, .read 1, .handle fun _ => true,
    .rename [] (shortName 'x' (by decide)) [] (shortName 'y' (by decide)) false,
    .rmdir [m] (shortName 'a' (by decide)) false, .read 2, .handle fun _ => true,
    .handle fun _ => true, .setPid ['/', 'm'] 78]

private theorem new_dirs_execute :
    (execute (watchStep maxQueuedEvents) (fun w a => decide (KeepsPaths maxQueuedEvents w a))
      (smallStart.get smallStart_isSome) newDirs).isSome = true := by
  decide +kernel

/-- `watchesTree_of_run` on a run in which directories are created and removed. -/
theorem watchesTree_new_dirs :
    ∃ w₀ tr w, smallStart = some w₀ ∧ Run (watchStep maxQueuedEvents) w₀ tr w ∧ w.Quiet ∧
      w.watches.map Prod.snd = [2, 5, 6] ∧ w.WatchesTree := by
  obtain ⟨tr, h, hmeet⟩ := exists_run_of_isSome new_dirs_execute
  have hstart : smallStart = some (smallStart.get smallStart_isSome) := by simp
  have hgood : StepsMeet (KeepsPaths maxQueuedEvents) tr :=
    hmeet.mono fun _ _ hgood => of_decide_eq_true hgood
  exact ⟨_, tr, _, hstart, h, by decide +kernel, by decide +kernel,
    watchesTree_of_run (fits_of_paths (by decide +kernel)) hstart h hgood (by decide +kernel)⟩

/-- `/m/a` becomes `/m/b`. -/
def renamedDir : List WatchAction :=
  let m := shortName 'm' (by decide)
  [.rename [m] (shortName 'a' (by decide)) [m] (shortName 'b' (by decide)) false, .read 2,
    .handle fun _ => true, .handle fun _ => true]

private theorem renamed_dir_executes :
    (execute (watchStep maxQueuedEvents) (fun _ _ => true) (smallStart.get smallStart_isSome)
      renamedDir).isSome = true := by
  decide +kernel

/-- All events of the `rename` have been processed, and the list still has the old path. -/
theorem renamed_dir_not_followed :
    ∃ w₀ tr w, smallStart = some w₀ ∧ Run (watchStep maxQueuedEvents) w₀ tr w ∧ w.Quiet ∧
      (2, 3) ∈ w.watches ∧ getWatchPath w.state.watchList 2 = some ['/', 'm', '/', 'a'] ∧
      ([shortName 'm' (by decide), shortName 'b' (by decide)], 3) ∈ w.tree.nodes ∧
      ¬ w.WatchesTree := by
  obtain ⟨tr, h, -⟩ := exists_run_of_isSome renamed_dir_executes
  have hstart : smallStart = some (smallStart.get smallStart_isSome) := by simp
  refine ⟨_, tr, _, hstart, h, by decide +kernel, by decide +kernel, by decide +kernel,
    by decide +kernel, fun hwatches => ?_⟩
  have hcurrent := (hwatches.current (2, 3) (by decide +kernel) ['/', 'm', '/', 'a']
    (by decide +kernel)).1
  revert hcurrent
  decide +kernel

end MonitorDaemon
