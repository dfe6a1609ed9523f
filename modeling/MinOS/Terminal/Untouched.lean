import MinOS.Terminal.Windowless

/-!
# What a command line does to the state of a window

A line leaves the files of the terminal as they were, and every layer but its own.  In a
terminal without a window it uses `window_` and `layer_id_` nevertheless: `Print` is not
guarded, so only a line that never gets there leaves them alone.
-/

namespace MinOS
namespace Windowless

open Graphics CommandLine Program

/-- A newline uses neither `window_` nor `layer_id_`, and if `ExecuteLine` returns, the map of
the layers and the files are as before. -/
structure Untouched (w : World) (modifier keycode : BitVec 8) (t : Terminal) : Prop where
  events : ∀ e ∈ (inputKey w modifier keycode 10 t).events, e.touchesWindow = false
  restored : ∀ t', (executeLine w (entered t)).result = some ((), t') →
    t'.layerTaskMap = t.layerTaskMap ∧ t'.files = t.files

/-- Whether `ls` waits for the end of a directory that has none. -/
def lsHangs (w : World) (firstArg : Option Text) : Bool :=
  match lsTarget w firstArg with
  | none => true
  | some (.ok (.inl cluster)) => !(w.listAllEntries cluster).2
  | some _ => false

/-- Whether `cat` waits for the end of its input. -/
def catHangs (w : World) (stdin : Descriptor) (firstArg : Option Text) : Bool :=
  match catInput w stdin firstArg with
  | none => true
  | some (.ok fd) => !(w.readDelims fd).2
  | some (.error _) => false

/-- Whether an app is not found for ever, or does not exit. -/
def externalHangs (w : World) (command : Text) (firstArg : Option Text) : Bool :=
  match w.findCommand command with
  | none => true
  | some none => false
  | some (some entry) => (w.runApp entry command firstArg).isNone

def commandHangs (w : World) (stdin : Descriptor) (p : Parsed) : Bool :=
  match builtin p.command with
  | some .ls => lsHangs w p.firstArg
  | some .cat => catHangs w stdin p.firstArg
  | some _ => false
  | none => p.command ≠ [] && externalHangs w p.command p.firstArg

/-- Whether the lookup of the file that a line redirects to does not come back. -/
def redirectHangs (w : World) (dest : Option Text) : Bool :=
  dest.any fun dest ↦ (openRedirect w dest).isNone

/-- Whether a line has no redirection, or one to a file that can be opened. -/
def redirectOpens (w : World) (dest : Option Text) : Bool :=
  dest.all fun dest ↦
    match openRedirect w dest with
    | some (.ok _) => true
    | _ => false

/-- Whether a line gets stuck where it has not used the window yet: at the file it redirects
to, or without a pipe at its command. -/
def stuck (w : World) (stdin : Descriptor) (p : Parsed) : Bool :=
  redirectHangs w p.redirDest ||
    (redirectOpens w p.redirDest && p.subcommand.isNone && commandHangs w stdin p)

/-! ## What the parts of a line may change -/

/-- The window and the layer are the same, and no files but the standard output and no layers
but the terminal's own have changed. -/
structure Frame (t₀ t : Terminal) : Prop where
  showWindow : t.showWindow = t₀.showWindow
  layerId : t.layerId = t₀.layerId
  files : ∀ i ≠ 1, t.files i = t₀.files i
  layerTaskMap : ∀ k ≠ t₀.layerId, t.layerTaskMap k = t₀.layerTaskMap k

/-- Events that use no window state are allowed, and with a window all of them. -/
structure Allows (ok : Event → Prop) (t₀ : Terminal) : Prop where
  quiet : ∀ e : Event, e.touchesWindow = false → ok e
  shown : t₀.showWindow = true → ∀ e, ok e

section Safe

variable {ok : Event → Prop} {t₀ : Terminal}

theorem Frame.refl (t : Terminal) : Frame t t := ⟨rfl, rfl, fun _ _ ↦ rfl, fun _ _ ↦ rfl⟩

theorem Frame.setFile {t : Terminal} (h : Frame t₀ t) (fd : Descriptor) :
    Frame t₀ { t with files := Function.update t.files 1 fd } where
  showWindow := h.showWindow
  layerId := h.layerId
  files i hi := (Function.update_of_ne hi _ _).trans (h.files i hi)
  layerTaskMap := h.layerTaskMap

theorem Frame.setLayerTask {t : Terminal} (h : Frame t₀ t) (taskId : ℕ) :
    Frame t₀
      { t with layerTaskMap := Function.update t.layerTaskMap t.layerId (some taskId) } where
  showWindow := h.showWindow
  layerId := h.layerId
  files := h.files
  layerTaskMap k hk :=
    (Function.update_of_ne (h.layerId ▸ hk) _ _).trans (h.layerTaskMap k hk)

theorem drawIfShown_safe (h : Allows ok t₀) :
    Safe ok (Frame t₀) drawIfShown fun _ ↦ Frame t₀ := by
  refine .bind_get fun t ht ↦ .ite (fun hshow ↦ ?_) fun _ ↦ .pure _ fun _ hs ↦ hs ▸ ht
  exact (Safe.emit (h.shown (ht.showWindow ▸ hshow) _)).weaken (fun _ hs ↦ hs) fun _ _ hs ↦ hs ▸ ht

theorem printToFD_safe (h : Allows ok t₀) (i : Fin 3) (s : Text) :
    Safe ok (Frame t₀) (printToFD i s) fun _ ↦ Frame t₀ :=
  .bind_get_of_forall fun _ ↦ .emit (h.quiet _ rfl)

theorem printLines_safe (h : Allows ok t₀) (lines : List Text × Bool) :
    Safe ok (Frame t₀) (printLines lines) fun _ ↦ Frame t₀ :=
  .bind (.forM _ fun s _ ↦ printToFD_safe h 1 s) fun _ ↦ .call _

/-- A message, and an exit code. -/
theorem printToFD_pure_safe (h : Allows ok t₀) {α : Type} (i : Fin 3) (s : Text) (a : α) :
    Safe ok (Frame t₀) (do printToFD i s; pure a) fun _ ↦ Frame t₀ :=
  .bind (printToFD_safe h i s) fun _ ↦ .pure _ fun _ hs ↦ hs

theorem echoArg_safe (h : Allows ok t₀) (firstArg : Option Text) :
    Safe ok (Frame t₀) (echoArg firstArg) fun _ ↦ Frame t₀ := by
  cases firstArg with
  | none => exact .pure _ fun _ hs ↦ hs
  | some arg =>
      refine .ite (fun _ ↦ .ite (fun _ ↦ ?_) fun _ ↦ .pure _ fun _ hs ↦ hs) fun _ ↦
        printToFD_safe h 1 _
      exact .bind_get_of_forall fun _ ↦ printToFD_safe h 1 _

theorem ls_safe (h : Allows ok t₀) (w : World) (firstArg : Option Text) :
    Safe ok (Frame t₀) (ls w firstArg) fun _ ↦ Frame t₀ := by
  refine .bind (.call _) ?_
  rintro (message | cluster | name)
  · exact printToFD_pure_safe h 2 _ _
  · exact .bind (printLines_safe h _) fun _ ↦ .pure _ fun _ hs ↦ hs
  · exact printToFD_pure_safe h 1 _ _

theorem cat_safe (h : Allows ok t₀) (w : World) (firstArg : Option Text) :
    Safe ok (Frame t₀) (cat w firstArg) fun _ ↦ Frame t₀ := by
  refine .bind_get_of_forall fun t ↦ .bind (.call _) ?_
  rintro (message | fd)
  · exact printToFD_pure_safe h 2 _ _
  · exact .bind (drawIfShown_safe h) fun _ ↦ .bind (printLines_safe h _) fun _ ↦
      .bind (drawIfShown_safe h) fun _ ↦ .pure _ fun _ hs ↦ hs

/-- A command of `ExecuteLine` itself draws only into a window that is there. -/
theorem runCommand_safe (h : Allows ok t₀) (w : World) {p : Parsed} {b : Builtin}
    (hbuiltin : builtin p.command = some b) :
    Safe ok (Frame t₀) (runCommand w p) fun _ ↦ Frame t₀ := by
  rw [runCommand, hbuiltin]
  cases b with
  | echo =>
      exact .bind (.bind (echoArg_safe h _) fun _ ↦ printToFD_safe h 1 _) fun _ ↦
        .pure _ fun _ hs ↦ hs
  | clear =>
      refine .bind (drawIfShown_safe h) fun _ ↦ .bind (.modify fun _ hs ↦ ?_) fun _ ↦
        .pure _ fun _ hs ↦ hs
      exact ⟨hs.showWindow, hs.layerId, hs.files, hs.layerTaskMap⟩
  | lspci => exact .bind (printLines_safe h _) fun _ ↦ .pure _ fun _ hs ↦ hs
  | ls => exact ls_safe h w _
  | cat => exact cat_safe h w _
  | noterm =>
      exact .bind_get_of_forall fun _ ↦ .bind (.emit (h.quiet _ rfl)) fun _ ↦
        .pure _ fun _ hs ↦ hs
  | memstat => exact .bind (printLines_safe h _) fun _ ↦ .pure _ fun _ hs ↦ hs

end Safe

/-! ## What a whole line leaves as it was -/

section Restored

variable {t₀ : Terminal}

theorem Allows.all (t₀ : Terminal) : Allows (fun _ ↦ True) t₀ :=
  ⟨fun _ _ ↦ trivial, fun _ _ ↦ trivial⟩

theorem Frame.setCursor {t : Terminal} (h : Frame t₀ t) (cursor : Vector2D) :
    Frame t₀ { t with cursor := cursor } :=
  ⟨h.showWindow, h.layerId, h.files, h.layerTaskMap⟩

theorem scroll1_frame : Safe (fun _ ↦ True) (Frame t₀) scroll1 fun _ ↦ Frame t₀ :=
  .bind (.emit trivial) fun _ ↦ .emit trivial

theorem newline_frame : Safe (fun _ ↦ True) (Frame t₀) newline fun _ ↦ Frame t₀ := by
  refine .bind_get fun t ht ↦ .ite (fun _ ↦ .set fun _ _ ↦ ht.setCursor _) fun _ ↦ ?_
  exact .bind (.set fun _ _ ↦ ht.setCursor _) fun _ ↦ scroll1_frame

theorem put_frame (full : Bool) (width : ℤ) :
    Safe (fun _ ↦ True) (Frame t₀) (put full width) fun _ ↦ Frame t₀ :=
  .bind (.ite (fun _ ↦ newline_frame) fun _ ↦ .pure _ fun _ hs ↦ hs) fun _ ↦
    .bind (.emit trivial) fun _ ↦ .modify fun _ hs ↦ hs.setCursor _

theorem printChar_frame (c : ℕ) :
    Safe (fun _ ↦ True) (Frame t₀) (printChar c) fun _ ↦ Frame t₀ :=
  .bind_get_of_forall fun _ ↦
    .ite (fun _ ↦ .pure _ fun _ hs ↦ hs) fun _ ↦ .ite (fun _ ↦ newline_frame) fun _ ↦
      .ite (fun _ ↦ put_frame _ _) fun _ ↦ put_frame _ _

theorem print_frame (w : World) (s : Text) :
    Safe (fun _ ↦ True) (Frame t₀) (print w s) fun _ ↦ Frame t₀ :=
  .bind_get_of_forall fun _ ↦ .bind (drawIfShown_safe (.all t₀)) fun _ ↦
    .bind (.forM _ fun _ _ ↦ printChar_frame _) fun _ ↦
      .bind (drawIfShown_safe (.all t₀)) fun _ ↦ .bind_get_of_forall fun _ ↦
        .bind (.emit trivial) fun _ ↦ .emit trivial

theorem executeFile_frame (w : World) (entry : ℕ) (command : Text) (firstArg : Option Text) :
    Safe (fun _ ↦ True) (Frame t₀) (executeFile w entry command firstArg) fun _ ↦ Frame t₀ := by
  refine .bind (.call _) ?_
  rintro (err | ret)
  · exact .pure _ fun _ hs ↦ hs
  · exact .bind (print_frame w _) fun _ ↦ .pure _ fun _ hs ↦ hs

theorem external_frame (w : World) (command : Text) (firstArg : Option Text) :
    Safe (fun _ ↦ True) (Frame t₀) (external w command firstArg) fun _ ↦ Frame t₀ := by
  refine .bind (.call _) ?_
  rintro (_ | entry)
  · exact printToFD_pure_safe (.all t₀) 2 _ _
  · refine .bind (executeFile_frame w _ _ _) ?_
    rintro ⟨ret, _ | err⟩
    · exact .pure _ fun _ hs ↦ hs
    · exact printToFD_pure_safe (.all t₀) 2 _ _

theorem runCommand_frame (w : World) (p : Parsed) :
    Safe (fun _ ↦ True) (Frame t₀) (runCommand w p) fun _ ↦ Frame t₀ := by
  cases hbuiltin : builtin p.command with
  | some b => exact runCommand_safe (.all t₀) w hbuiltin
  | none =>
      rw [runCommand, hbuiltin]
      exact .ite (fun _ ↦ .pure _ fun _ hs ↦ hs) fun _ ↦ external_frame w _ _

theorem setLayerTask_frame (taskId : ℕ) :
    Safe (fun _ ↦ True) (Frame t₀) (setLayerTask taskId) fun _ ↦ Frame t₀ :=
  .bind_get fun _ ht ↦ .bind (.emit trivial) fun _ ↦ .set fun _ _ ↦ ht.setLayerTask _

theorem openPipe_frame (w : World) (subcommand : Option Text) :
    Safe (fun _ ↦ True) (Frame t₀) (openPipe w subcommand) fun _ ↦ Frame t₀ := by
  cases subcommand with
  | none => exact .pure _ fun _ hs ↦ hs
  | some subcommand =>
      exact .bind_get_of_forall fun _ ↦ .bind (.emit trivial) fun _ ↦
        .bind (.modify fun _ hs ↦ hs.setFile _) fun _ ↦
          .bind (setLayerTask_frame _) fun _ ↦ .pure _ fun _ hs ↦ hs

theorem joinPipe_frame (w : World) (exitCode : ℤ) (pipe : Option ℕ) :
    Safe (fun _ ↦ True) (Frame t₀) (joinPipe w exitCode pipe) fun _ ↦ Frame t₀ := by
  cases pipe with
  | none => exact .pure _ fun _ hs ↦ hs
  | some subtaskId =>
      refine .bind (.emit trivial) fun _ ↦ .bind (.call _) fun finished ↦
        .bind_get_of_forall fun _ ↦ .bind (setLayerTask_frame _) fun _ ↦ ?_
      cases finished.2 with
      | none => exact .pure _ fun _ hs ↦ hs
      | some err => exact .bind (.emit trivial) fun _ ↦ .pure _ fun _ hs ↦ hs

/-- Behind the redirection the standard output is put back to what it was. -/
theorem executeRest_frame (w : World) (p : Parsed) (originalStdout : Descriptor) :
    Safe (fun _ ↦ True) (Frame t₀) (executeRest w p originalStdout) fun _ t ↦
      Frame t₀ t ∧ t.files 1 = originalStdout := by
  refine .bind (openPipe_frame w _) fun _ ↦ .bind (runCommand_frame w p) fun _ ↦
    .bind (joinPipe_frame w _ _) fun _ ↦ .modify fun t ht ↦ ⟨?_, ?_⟩
  · have hrestored := ht.setFile originalStdout
    exact ⟨hrestored.showWindow, hrestored.layerId, hrestored.files, hrestored.layerTaskMap⟩
  · exact Function.update_self (1 : Fin 3) originalStdout t.files

/-- A redirection hangs, lets the line go on, or ends it with a message. -/
theorem redirect_cases (w : World) (dest : Option Text) (s : Terminal) :
    (redirectHangs w dest = true ∧ redirect w dest s = ⟨[], none⟩) ∨
      (redirectHangs w dest = false ∧ redirectOpens w dest = true ∧
        ∃ s', redirect w dest s = ⟨[], some (true, s')⟩ ∧ Frame s s') ∨
      (redirectHangs w dest = false ∧ redirectOpens w dest = false ∧
        ∃ message, redirect w dest s = ⟨[.write (s.files 2) message], some (false, s)⟩) := by
  cases dest with
  | none => exact Or.inr (Or.inl ⟨rfl, rfl, s, rfl, .refl s⟩)
  | some dest =>
      rw [redirect, redirectHangs, redirectOpens, Option.any_some, Option.all_some]
      rcases openRedirect w dest with _ | message | file
      · exact Or.inl ⟨rfl, rfl⟩
      · exact Or.inr (Or.inr ⟨rfl, rfl, message, rfl⟩)
      · exact Or.inr (Or.inl ⟨rfl, rfl, _, rfl, (Frame.refl s).setFile _⟩)

/-- `ExecuteLine`, from the state that it reads the line in. -/
theorem executeLine_eq (w : World) (s : Terminal) :
    executeLine w s =
      (redirect w (parse s.linebuf.toList).redirDest >>= fun go ↦
        if go = true then executeRest w (parse s.linebuf.toList) (s.files 1) else pure ()) s :=
  rfl

/-- When `ExecuteLine` returns, the files are as before, and so are the layers but the
terminal's own. -/
theorem executeLine_restores {w : World} {s t : Terminal}
    (h : (executeLine w s).result = some ((), t)) :
    t.files = s.files ∧ ∀ k ≠ s.layerId, t.layerTaskMap k = s.layerTaskMap k := by
  rw [executeLine_eq] at h
  obtain ⟨-, hredirect⟩ | ⟨-, -, s', hredirect, hframe⟩ | ⟨-, -, message, hredirect⟩ :=
    redirect_cases w (parse s.linebuf.toList).redirDest s
  · rw [bind_result, hredirect] at h
    cases h
  · rw [bind_result, hredirect] at h
    obtain ⟨hlast, hstdout⟩ := (executeRest_frame w _ _ s' hframe).2 _ _ h
    refine ⟨funext fun i ↦ ?_, hlast.layerTaskMap⟩
    by_cases hi : i = 1
    · rw [hi, hstdout]
    · exact hlast.files i hi
  · rw [bind_result, hredirect] at h
    cases h
    exact ⟨rfl, fun _ _ ↦ rfl⟩

end Restored

/-! ## What may not come back -/

theorem drawIfShown_returns : Returns drawIfShown :=
  .bind .get fun _ ↦ .ite (.emit _) (.pure _)

theorem printToFD_returns (i : Fin 3) (s : Text) : Returns (printToFD i s) :=
  .bind .get fun _ ↦ .emit _

theorem printToFD_pure_returns {α : Type} (i : Fin 3) (s : Text) (a : α) :
    Returns (do printToFD i s; pure a : Action α) :=
  .bind (printToFD_returns i s) fun _ ↦ .pure _

theorem scroll1_returns : Returns scroll1 := .bind (.emit _) fun _ ↦ .emit _

theorem newline_returns : Returns newline :=
  .bind .get fun _ ↦ .ite (.set _) (.bind (.set _) fun _ ↦ scroll1_returns)

theorem put_returns (full : Bool) (width : ℤ) : Returns (put full width) :=
  .bind (.ite newline_returns (.pure _)) fun _ ↦ .bind (.emit _) fun _ ↦ .modify _

theorem printChar_returns (c : ℕ) : Returns (printChar c) :=
  .bind .get fun _ ↦
    .ite (.pure _) (.ite newline_returns (.ite (put_returns _ _) (put_returns _ _)))

theorem print_returns (w : World) (s : Text) : Returns (print w s) :=
  .bind .get fun _ ↦ .bind drawIfShown_returns fun _ ↦
    .bind (.forM _ fun _ ↦ printChar_returns _) fun _ ↦ .bind drawIfShown_returns fun _ ↦
      .bind .get fun _ ↦ .bind (.emit _) fun _ ↦ .emit _

theorem printLines_hangs_iff (lines : List Text × Bool) (s : Terminal) :
    (printLines lines s).result = none ↔ lines.2 = false := by
  obtain ⟨a, t, hprinted⟩ := Returns.forM lines.1 (fun l ↦ printToFD_returns 1 l) s
  rw [printLines, bind_of_returns hprinted]
  cases lines.2 with
  | false => exact iff_of_true rfl rfl
  | true => exact iff_of_false (Option.some_ne_none _) Bool.noConfusion

theorem echo_returns (firstArg : Option Text) : Returns (echo firstArg) := by
  refine .bind ?_ fun _ ↦ printToFD_returns _ _
  cases firstArg with
  | none => exact .pure _
  | some arg =>
      exact .ite (.ite (.bind .get fun _ ↦ printToFD_returns _ _) (.pure _))
        (printToFD_returns _ _)

theorem printLines_returns (lines : List Text) : Returns (printLines (lines, true)) :=
  .bind (.forM _ fun _ ↦ printToFD_returns _ _) fun _ ↦ .call _

theorem ls_hangs_iff (w : World) (firstArg : Option Text) (s : Terminal) :
    (ls w firstArg s).result = none ↔ lsHangs w firstArg = true := by
  rw [ls, lsHangs]
  rcases lsTarget w firstArg with _ | message | cluster | name
  · exact iff_of_true rfl rfl
  · rw [call_some_bind]
    exact iff_of_false ((printToFD_pure_returns 2 _ _).not_hangs s) Bool.false_ne_true
  · rw [call_some_bind]
    refine (Returns.bind_hangs_iff (fun _ ↦ .pure _) s).trans ?_
    rw [printLines_hangs_iff, Bool.not_eq_true']
  · rw [call_some_bind]
    exact iff_of_false ((printToFD_pure_returns 1 _ _).not_hangs s) Bool.false_ne_true

theorem cat_hangs_iff (w : World) (firstArg : Option Text) (s : Terminal) :
    (cat w firstArg s).result = none ↔ catHangs w (s.files 0) firstArg = true := by
  rw [cat, get_bind, catHangs]
  rcases catInput w (s.files 0) firstArg with _ | message | fd
  · exact iff_of_true rfl rfl
  · rw [call_some_bind]
    exact iff_of_false ((printToFD_pure_returns 2 _ _).not_hangs s) Bool.false_ne_true
  · rw [call_some_bind]
    obtain ⟨_, s', hdrawn⟩ := drawIfShown_returns s
    dsimp only
    rw [drawCursor, bind_of_returns hdrawn]
    refine (Returns.bind_hangs_iff
      (fun _ ↦ .bind drawIfShown_returns fun _ ↦ .pure _) s').trans ?_
    rw [printLines_hangs_iff, Bool.not_eq_true']

theorem executeFile_hangs_iff (w : World) (entry : ℕ) (command : Text) (firstArg : Option Text)
    (s : Terminal) :
    (executeFile w entry command firstArg s).result = none ↔
      w.runApp entry command firstArg = none := by
  rw [executeFile]
  rcases w.runApp entry command firstArg with _ | err | ret
  · exact iff_of_true rfl rfl
  · exact iff_of_false (Option.some_ne_none _) (Option.some_ne_none _)
  · rw [call_some_bind]
    exact iff_of_false ((Returns.bind (print_returns w _) fun _ ↦ .pure _).not_hangs s)
      (Option.some_ne_none _)

theorem external_hangs_iff (w : World) (command : Text) (firstArg : Option Text) (s : Terminal) :
    (external w command firstArg s).result = none ↔ externalHangs w command firstArg = true := by
  rw [external, externalHangs]
  rcases w.findCommand command with _ | _ | entry
  · exact iff_of_true rfl rfl
  · rw [call_some_bind]
    exact iff_of_false ((printToFD_pure_returns 2 _ _).not_hangs s) Bool.false_ne_true
  · rw [call_some_bind]
    refine (Returns.bind_hangs_iff (fun r ↦ ?_) s).trans ?_
    · cases r.2 with
      | none => exact .pure _
      | some err => exact printToFD_pure_returns 2 _ _
    · rw [executeFile_hangs_iff, Option.isNone_iff_eq_none]

/-- An app that is not started or does not exit has left no event. -/
theorem external_events_of_hangs {w : World} {command : Text} {firstArg : Option Text}
    {s : Terminal} (h : externalHangs w command firstArg = true) :
    (external w command firstArg s).events = [] := by
  rw [externalHangs] at h
  rw [external]
  rcases hfind : w.findCommand command with _ | _ | entry
  · rfl
  · rw [hfind] at h
    cases h
  · rw [hfind] at h
    have hrun := Option.isNone_iff_eq_none.mp h
    rw [call_some_bind]
    dsimp only
    rw [executeFile, hrun]
    rfl

theorem runCommand_hangs_iff (w : World) (p : Parsed) (s : Terminal) :
    (runCommand w p s).result = none ↔ commandHangs w (s.files 0) p = true := by
  have hnever {x : Action ℤ} (hx : Returns x) : (x s).result = none ↔ false = true :=
    iff_of_false (hx.not_hangs s) Bool.false_ne_true
  rw [runCommand, commandHangs]
  cases builtin p.command with
  | none =>
      by_cases hempty : p.command = []
      · simp [hempty]
      · simpa [hempty] using external_hangs_iff w p.command p.firstArg s
  | some b =>
      cases b with
      | echo => exact hnever (.bind (echo_returns _) fun _ ↦ .pure _)
      | clear =>
          exact hnever (.bind drawIfShown_returns fun _ ↦ .bind (.modify _) fun _ ↦ .pure _)
      | lspci => exact hnever (.bind (printLines_returns _) fun _ ↦ .pure _)
      | ls => exact ls_hangs_iff w _ s
      | cat => exact cat_hangs_iff w _ s
      | noterm => exact hnever (.bind .get fun _ ↦ .bind (.emit _) fun _ ↦ .pure _)
      | memstat => exact hnever (.bind (printLines_returns _) fun _ ↦ .pure _)

theorem executeRest_of_noPipe {p : Parsed} (h : p.subcommand = none) (w : World)
    (originalStdout : Descriptor) (s : Terminal) :
    executeRest w p originalStdout s =
      (runCommand w p >>= fun exitCode ↦ modify fun t ↦
        { t with lastExitCode := exitCode, files := Function.update t.files 1 originalStdout })
        s := by
  rw [executeRest, h]
  rfl

/-! ## Lines in a terminal without a window -/

section Hidden

variable {w : World} {s : Terminal}

theorem drawIfShown_hidden (hshow : s.showWindow = false) :
    drawIfShown s = ⟨[], some ((), s)⟩ := by
  rw [drawIfShown, get_bind, hshow]
  rfl

/-- A command that hangs has used no window. -/
theorem runCommand_quiet_of_hangs {p : Parsed} (hshow : s.showWindow = false)
    (h : commandHangs w (s.files 0) p = true) :
    ∀ e ∈ (runCommand w p s).events, e.touchesWindow = false := by
  cases hbuiltin : builtin p.command with
  | some b =>
      have hallows : Allows (fun e ↦ e.touchesWindow = false) s :=
        ⟨fun _ h ↦ h, fun h ↦ absurd (hshow.symm.trans h) Bool.false_ne_true⟩
      exact (runCommand_safe hallows w hbuiltin s (Frame.refl s)).1
  | none =>
      rw [commandHangs, hbuiltin, Bool.and_eq_true, decide_eq_true_eq] at h
      obtain ⟨hne, hhangs⟩ := h
      rw [runCommand, hbuiltin]
      dsimp only
      rw [if_neg hne, external_events_of_hangs hhangs]
      exact fun _ h ↦ absurd h List.not_mem_nil

/-- A line that is stuck has used no window. -/
theorem executeLine_of_stuck (hshow : s.showWindow = false)
    (hstuck : stuck w (s.files 0) (parse s.linebuf.toList) = true) :
    (executeLine w s).result = none ∧ ∀ e ∈ (executeLine w s).events, e.touchesWindow = false := by
  rw [executeLine_eq]
  rw [stuck] at hstuck
  obtain ⟨-, hredirect⟩ | ⟨hhangs, hopens, s', hredirect, hframe⟩ | ⟨hhangs, hopens, -⟩ :=
    redirect_cases w (parse s.linebuf.toList).redirDest s
  · rw [bind_of_hangs (by rw [hredirect]), hredirect]
    exact ⟨rfl, fun _ h ↦ absurd h List.not_mem_nil⟩
  · rw [hhangs, hopens, Bool.false_or, Bool.true_and, Bool.and_eq_true,
      Option.isNone_iff_eq_none, ← hframe.files 0 (by decide)] at hstuck
    obtain ⟨hpipe, hcommand⟩ := hstuck
    have hnone := (runCommand_hangs_iff w _ s').mpr hcommand
    rw [bind_of_returns (by rw [hredirect]), if_pos rfl, executeRest_of_noPipe hpipe,
      bind_of_hangs hnone, hredirect]
    exact ⟨rfl, runCommand_quiet_of_hangs (hframe.showWindow.trans hshow) hcommand⟩
  · rw [hhangs, hopens] at hstuck
    cases hstuck

/-- A line that hangs without having used a window is stuck. -/
theorem stuck_of_executeLine (hnone : (executeLine w s).result = none)
    (hquiet : ∀ e ∈ (executeLine w s).events, e.touchesWindow = false) :
    stuck w (s.files 0) (parse s.linebuf.toList) = true := by
  rw [executeLine_eq] at hnone hquiet
  rw [stuck]
  obtain ⟨hhangs, -⟩ | ⟨hhangs, hopens, s', hredirect, hframe⟩ | ⟨-, -, message, hredirect⟩ :=
    redirect_cases w (parse s.linebuf.toList).redirDest s
  · rw [hhangs, Bool.true_or]
  · rw [bind_of_returns (by rw [hredirect]), if_pos rfl, hredirect] at hnone hquiet
    cases hpipe : (parse s.linebuf.toList).subcommand with
    | some subcommand =>
        have hkey : Event.layerKey s'.layerId w.newTask ∈
            (executeRest w (parse s.linebuf.toList) (s.files 1) s').events := by
          rw [executeRest, hpipe]
          refine mem_bind_left ?_
          exact List.mem_cons_of_mem _ List.mem_cons_self
        cases hquiet _ hkey
    | none =>
        rw [executeRest_of_noPipe hpipe, Returns.bind_hangs_iff fun _ ↦ .modify _,
          runCommand_hangs_iff, hframe.files 0 (by decide)] at hnone
        rw [hopens, hnone]
        exact Bool.or_true _
  · rw [bind_of_returns (by rw [hredirect])] at hnone
    cases hnone

theorem enter_eq (w : World) (s : Terminal) :
    enter w s =
      ((if s.cursor.y < kRows - 1 then pure () else scroll1) >>= fun _ ↦
        executeLine w >>= fun _ ↦ print w (text ">") >>= fun _ ↦ emit .window >>= fun _ ↦
          pure ⟨Terminal.kTopLeftMargin, w.innerSize⟩) (entered s) :=
  rfl

theorem enter_of_not_last (h : s.cursor.y < kRows - 1) :
    enter w s =
      (executeLine w >>= fun _ ↦ print w (text ">") >>= fun _ ↦ emit .window >>= fun _ ↦
        pure ⟨Terminal.kTopLeftMargin, w.innerSize⟩) (entered s) := by
  rw [enter_eq, if_pos h]
  rfl

/-- Without a window only the branch of the key is left of `InputKey`. -/
theorem inputKey_hidden (hshow : s.showWindow = false) (w : World)
    (modifier keycode ascii : BitVec 8) :
    inputKey w modifier keycode ascii s =
      (pressKey w keycode ascii ⟨calcCursorPos s.cursor, ⟨8 * 2, 16⟩⟩ >>= fun drawArea ↦
        drawCursor >>= fun _ ↦ pure drawArea) s := by
  rw [inputKey, drawCursor, bind_of_returns (by rw [drawIfShown_hidden hshow]),
    drawIfShown_hidden hshow]
  rfl

theorem inputKey_newline (hshow : s.showWindow = false) (w : World)
    (modifier keycode : BitVec 8) :
    inputKey w modifier keycode 10 s =
      (enter w >>= fun drawArea ↦ drawCursor >>= fun _ ↦ pure drawArea) s := by
  rw [inputKey_hidden hshow, pressKey, if_pos rfl]

/-- In a terminal without a window, a newline leaves the window state alone exactly if the
cursor is not in the last row and the line gets stuck. -/
theorem untouched_iff (w : World) (modifier keycode : BitVec 8) (t : Terminal)
    (hshow : t.showWindow = false) :
    Untouched w modifier keycode t ↔
      t.cursor.y < kRows - 1 ∧
        stuck w (t.files 0) (parse (entered t).linebuf.toList) = true := by
  constructor
  · intro h
    have hquiet : ∀ e ∈ (enter w t).events, e.touchesWindow = false := by
      intro e he
      refine h.events e ?_
      rw [inputKey_newline hshow]
      exact mem_bind_left he
    have hrow : t.cursor.y < kRows - 1 := by
      by_contra hlast
      rw [enter_eq, if_neg hlast] at hquiet
      cases hquiet .window (mem_bind_left List.mem_cons_self)
    rw [enter_of_not_last hrow] at hquiet
    refine ⟨hrow, stuck_of_executeLine ?_ fun e he ↦ hquiet e (mem_bind_left he)⟩
    by_contra hreturns
    obtain ⟨⟨_, s'⟩, hresult⟩ := Option.ne_none_iff_exists'.mp hreturns
    obtain ⟨_, s'', hprint⟩ := print_returns w (text ">") s'
    cases hquiet .window
      (mem_bind_right hresult (mem_bind_right hprint (mem_bind_left List.mem_cons_self)))
  · rintro ⟨hrow, hstuck⟩
    obtain ⟨hnone, hquiet⟩ := executeLine_of_stuck (s := entered t) hshow hstuck
    constructor
    · rw [inputKey_newline hshow]
      have henter : enter w t = ⟨(executeLine w (entered t)).events, none⟩ := by
        rw [enter_of_not_last hrow, bind_of_hangs hnone]
      rw [bind_of_hangs (by rw [henter]), henter]
      exact hquiet
    · intro t' hreturns
      rw [hnone] at hreturns
      cases hreturns

/-- A reader of a pipe with the line `cat`. -/
def catReader : Terminal where
  taskId := 4
  showWindow := false
  layerId := 0xcdcdcdcd
  cursor := ⟨3, 0⟩
  linebufIndex := 3
  linebuf := (Line.empty.set 0 0x63).set 1 0x61 |>.set 2 0x74
  cmdHistory := List.replicate 8 .empty
  cmdHistoryIndex := -1
  files := ![.pipe 4, .terminal 3, .terminal 3]
  lastExitCode := 0
  layerTaskMap := fun layer ↦ if layer = 7 then some 4 else none

/-- The sample volume, with a pipe that delivers one line; the writer may then close it. -/
def pipeWorld (closed : Bool) : World :=
  World.onVolume
    { innerSize := ⟨0, 0⟩
      findFile := fun _ ↦ none
      createFile := fun _ ↦ none
      findCommand := fun _ ↦ none
      isDirectory := fun _ ↦ false
      firstCluster := fun _ ↦ 0
      rootCluster := 0
      formatName := fun _ ↦ []
      listAllEntries := fun _ ↦ ([], true)
      readDelims := fun _ ↦ ([text "a\n"], closed)
      devices := []
      memoryLines := []
      runApp := fun _ _ _ ↦ none
      cleanUp := none
      newTask := 5
      waitFinish := fun _ ↦ some (0, none) }
    Fat.sampleVolume 8

theorem untouched_waiting : Untouched (pipeWorld false) 0 0 catReader :=
  (untouched_iff _ _ _ _ rfl).mpr ⟨by decide, by decide +kernel⟩

/-- The reader of a pipe that is closed draws its prompt. -/
theorem prompt_touches : ¬Untouched (pipeWorld true) 0 0 catReader := by
  intro h
  have hany : (inputKey (pipeWorld true) 0 0 10 catReader).events.any Event.touchesWindow = true := by
    decide +kernel
  obtain ⟨e, he, htouches⟩ := List.any_eq_true.mp hany
  exact Bool.false_ne_true ((h.events e he).symm.trans htouches)

end Hidden

/-! ## Other keys -/

section Keys

variable {ok : Event → Prop} {t₀ : Terminal}

theorem backspace_safe (h : Allows ok t₀) (drawArea : Graphics.Rectangle) :
    Safe ok (Frame t₀) (backspace drawArea) fun _ ↦ Frame t₀ := by
  refine .bind_get fun t ht ↦ .ite (fun _ ↦ .bind (Q := fun _ ↦ Frame t₀) (.set fun _ _ ↦ ?_) ?_)
    fun _ ↦ .pure _ fun _ hs ↦ hs ▸ ht
  · exact ⟨ht.showWindow, ht.layerId, ht.files, ht.layerTaskMap⟩
  · exact fun _ ↦ .bind (drawIfShown_safe h) fun _ ↦ .pure _ fun _ hs ↦ hs

theorem typeChar_safe (h : Allows ok t₀) (ascii : BitVec 8) :
    Safe ok (Frame t₀) (typeChar ascii) fun _ ↦ Frame t₀ := by
  refine .bind_get fun t ht ↦ .ite (fun _ ↦ .bind (Q := fun _ ↦ Frame t₀) (.set fun _ _ ↦ ?_) ?_)
    fun _ ↦ .pure _ fun _ hs ↦ hs ▸ ht
  · exact ⟨ht.showWindow, ht.layerId, ht.files, ht.layerTaskMap⟩
  · exact fun _ ↦ .bind (drawIfShown_safe h) fun _ ↦ .modify fun _ hs ↦ hs.setCursor _

/-- Without a window, a key that is no newline uses window state exactly if it is one of the
two that recall a line. -/
theorem key_touches_iff {t : Terminal} (hshow : t.showWindow = false) (w : World)
    (modifier : BitVec 8) {keycode ascii : BitVec 8} (hascii : ascii ≠ 10) :
    (∃ e ∈ (inputKey w modifier keycode ascii t).events, e.touchesWindow = true) ↔
      ascii = 0 ∧ (keycode = 0x51 ∨ keycode = 0x52) := by
  have hallows : Allows (fun e ↦ e.touchesWindow = false) t :=
    ⟨fun _ h ↦ h, fun h ↦ absurd (hshow.symm.trans h) Bool.false_ne_true⟩
  rw [inputKey_hidden hshow]
  constructor
  · rintro ⟨e, he, htouches⟩
    by_contra hother
    have hpress (drawArea : Graphics.Rectangle) :
        Safe (fun e ↦ e.touchesWindow = false) (Frame t)
          (pressKey w keycode ascii drawArea >>= fun drawArea ↦ drawCursor >>= fun _ ↦
            pure drawArea) fun _ ↦ Frame t := by
      refine .bind (Q := fun _ ↦ Frame t) ?_ fun drawArea ↦
        .bind (drawIfShown_safe hallows) fun _ ↦ .pure _ fun _ hs ↦ hs
      rw [pressKey, if_neg hascii]
      refine .ite (fun _ ↦ backspace_safe hallows _) fun _ ↦ .ite (fun _ ↦ ?_) fun hzero ↦ ?_
      · exact .bind (typeChar_safe hallows _) fun _ ↦ .pure _ fun _ hs ↦ hs
      · rw [not_and_or, not_or] at hother
        obtain ⟨hup, hdown⟩ := hother.resolve_left hzero
        rw [if_neg hup, if_neg hdown]
        exact .pure _ fun _ hs ↦ hs
    exact Bool.false_ne_true (((hpress _ t (Frame.refl t)).1 e he).symm.trans htouches)
  · rintro ⟨rfl, hkeycode⟩
    refine ⟨.window, mem_bind_left ?_, rfl⟩
    rcases hkeycode with rfl | rfl
    · exact List.mem_cons_self
    · exact List.mem_cons_self

end Keys

end Windowless
end MinOS
