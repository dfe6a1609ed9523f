import MinOS.Library.LineEditor
import MinOS.Terminal.Bounds

/-!
# Editing the command line

`InputKey` edits the command line as a line editor with a history of eight entries, whatever is
printed in between: the buffer up to the edit position is the line, and the strings in
`cmd_history_` are the history.
-/

namespace MinOS

open Transition

/-- The string in a line. -/
def Line.str (line : Line) : List (BitVec 8) := line.toList.takeWhile (· ≠ 0)

namespace Terminal

/-- What `ExecuteLine` gets if the line is entered. -/
def commandLine (t : Terminal) : List (BitVec 8) :=
  Line.str (t.linebuf.setIfInBounds t.linebufIndex.toNat 0)

/-- The key that a call of `InputKey` is about. -/
def editorKey (keycode ascii : BitVec 8) : LineEditor.Key (BitVec 8) :=
  if ascii = 10 then .enter
  else if ascii = 8 then .backspace
  else if ascii ≠ 0 then .char ascii
  else if keycode = 0x51 then .newer
  else if keycode = 0x52 then .older
  else .other

def Op.editorKey : Op → Option (LineEditor.Key (BitVec 8))
  | .inputKey _ keycode ascii _ => some (Terminal.editorKey keycode ascii)
  | .print _ => none

/-- `cmd_history_index_` for a place in the history. -/
def placeIndex : Option ℕ → ℤ
  | none => -1
  | some i => i

/-- The terminal shows what the editor holds. -/
structure Shows (t : Terminal) (e : LineEditor (BitVec 8)) : Prop where
  index : t.linebufIndex = e.line.length
  length : e.line.length < kLineMax
  line : t.linebuf.toList.take e.line.length = e.line
  nonzero : 0 ∉ e.line
  history : t.cmdHistory.map Line.str = e.history
  terminated : ∀ line ∈ t.cmdHistory, line.strlen < kLineMax
  place : t.cmdHistoryIndex = placeIndex e.place
  column : t.cursor.x = e.column

/-! ## What output leaves alone -/

/-- The fields that the editor is about, but for the cursor. -/
structure SameLine (t t' : Terminal) : Prop where
  index : t'.linebufIndex = t.linebufIndex
  line : t'.linebuf = t.linebuf
  history : t'.cmdHistory = t.cmdHistory
  place : t'.cmdHistoryIndex = t.cmdHistoryIndex

section Output

variable {font : Font.Glyphs} {t t' t'' : Terminal} {e : LineEditor (BitVec 8)}

theorem SameLine.refl (t : Terminal) : SameLine t t := ⟨rfl, rfl, rfl, rfl⟩

theorem SameLine.trans (h : SameLine t t') (h' : SameLine t' t'') : SameLine t t'' :=
  ⟨h'.index.trans h.index, h'.line.trans h.line, h'.history.trans h.history,
    h'.place.trans h.place⟩

theorem sameLine_newline (t : Terminal) : SameLine t t.newline := by
  rw [newline]
  dsimp only
  split_ifs
  · exact ⟨rfl, rfl, rfl, rfl⟩
  · exact ⟨rfl, rfl, rfl, rfl⟩

theorem sameLine_printChar (font : Font.Glyphs) (t : Terminal) (c : ℕ) :
    SameLine t (t.printChar font c) := by
  have hput : ∀ (u : Terminal) (w : ℤ), SameLine u (u.put font c w) := fun _ _ ↦ ⟨rfl, rfl, rfl, rfl⟩
  rw [printChar]
  split_ifs
  · exact sameLine_newline t
  · exact (sameLine_newline t).trans (hput _ _)
  · exact hput t _
  · exact (sameLine_newline t).trans (hput _ _)
  · exact hput t _

theorem sameLine_print (font : Font.Glyphs) (t : Terminal) (codes : List ℕ) :
    SameLine t (t.print font codes) := by
  have hfold : ∀ u : Terminal, SameLine u (codes.foldl (printChar font) u) := by
    induction codes with
    | nil => exact SameLine.refl
    | cons c codes ih => exact fun u ↦ (sameLine_printChar font u c).trans (ih _)
  have hdraw := hfold t.drawCursor
  exact ⟨hdraw.index, hdraw.line, hdraw.history, hdraw.place⟩

theorem sameLine_apply (font : Font.Glyphs) (t : Terminal) (o : Output) :
    SameLine t (o.apply font t) := by
  cases o with
  | print codes => exact sameLine_print font t codes
  | clear => exact ⟨rfl, rfl, rfl, rfl⟩
  | drawCursor => exact ⟨rfl, rfl, rfl, rfl⟩

/-- Commands leave everything but the buffer. -/
theorem executeLine_keeps (font : Font.Glyphs) (t : Terminal) (run : Execution) :
    (t.executeLine font run).linebufIndex = t.linebufIndex ∧
      (t.executeLine font run).cmdHistory = t.cmdHistory ∧
        (t.executeLine font run).cmdHistoryIndex = t.cmdHistoryIndex := by
  have hfold : ∀ (outputs : List Output) (u : Terminal),
      SameLine u (outputs.foldl (fun t o ↦ o.apply font t) u) := by
    intro outputs
    induction outputs with
    | nil => exact SameLine.refl
    | cons o outputs ih => exact fun u ↦ (sameLine_apply font u o).trans (ih _)
  have hall := hfold run.outputs t
  exact ⟨hall.index, hall.history, hall.place⟩

theorem Shows.output (h : Shows t e) (hsame : SameLine t t') :
    Shows t' { e with column := t'.cursor.x } where
  index := hsame.index.trans h.index
  length := h.length
  line := hsame.line.symm ▸ h.line
  nonzero := h.nonzero
  history := hsame.history.symm ▸ h.history
  terminated := hsame.history.symm ▸ h.terminated
  place := hsame.place.trans h.place
  column := rfl

end Output

/-! ## Keys -/

section Keys

variable {font : Font.Glyphs} {t t' : Terminal} {e : LineEditor (BitVec 8)}

theorem Shows.drawCursor (h : Shows t e) : Shows t.drawCursor e := ⟨h.index, h.length, h.line,
  h.nonzero, h.history, h.terminated, h.place, h.column⟩

/-- The string of a buffer that is terminated behind a line. -/
theorem str_terminate {buf : Line} {l : List (BitVec 8)} (hline : buf.toList.take l.length = l)
    (hzero : 0 ∉ l) (hlen : l.length < kLineMax) :
    Line.str (buf.setIfInBounds l.length 0) = l := by
  have hsize : l.length < buf.toList.length := by
    rw [Vector.length_toList]
    exact hlen
  rw [Line.str, Vector.toList_setIfInBounds, List.set_eq_take_append_cons_drop, if_pos hsize, hline,
    List.takeWhile_append_of_pos fun b hb ↦ by simpa using fun h0 : b = 0 ↦ hzero (h0 ▸ hb),
    List.takeWhile_cons, if_neg (by simp), List.append_nil]

theorem Shows.commandLine_eq (h : Shows t e) : t.commandLine = e.line := by
  rw [commandLine, h.index, Int.toNat_natCast]
  exact str_terminate h.line h.nonzero h.length

theorem Shows.typeChar (h : Shows t e) {a : BitVec 8} (ha : a ≠ 0) :
    Shows (t.typeChar font a) (e.insert kColumns kLineMax a) := by
  rw [Terminal.typeChar, LineEditor.insert, ← h.column]
  have hiff : t.linebufIndex < kLineMax - 1 ↔ e.line.length + 1 < kLineMax := by
    rw [h.index]
    omega
  by_cases hroom : t.cursor.x < kColumns - 1 ∧ t.linebufIndex < kLineMax - 1
  · rw [if_pos hroom, if_pos ⟨hroom.1, hiff.mp hroom.2⟩]
    have hsize : e.line.length < t.linebuf.toList.length := by
      rw [Vector.length_toList]
      exact h.length
    refine ⟨?_, ?_, ?_, ?_, h.history, h.terminated, h.place, rfl⟩
    · change t.linebufIndex + 1 = _
      rw [h.index, List.length_append, List.length_singleton]
      rfl
    · rw [List.length_append, List.length_singleton]
      exact hiff.mp hroom.2
    · change (t.linebuf.setIfInBounds t.linebufIndex.toNat a).toList.take _ = _
      rw [h.index, Int.toNat_natCast, List.length_append, List.length_singleton,
        Vector.toList_setIfInBounds, List.set_eq_take_append_cons_drop, if_pos hsize, h.line]
      simp [List.take_append]
    · rw [List.mem_append, not_or]
      exact ⟨h.nonzero, fun hmem ↦ ha (List.mem_singleton.mp hmem).symm⟩
  · have hno : ¬ (t.cursor.x < kColumns - 1 ∧ e.line.length + 1 < kLineMax) :=
      fun hin ↦ hroom ⟨hin.1, hiff.mpr hin.2⟩
    rw [if_neg hroom, if_neg hno]
    exact h

theorem Shows.backspace (h : Shows t e) : Shows t.backspace e.erase := by
  rw [Terminal.backspace, LineEditor.erase, ← h.column]
  by_cases hroom : t.cursor.x > 1
  · rw [if_pos hroom, if_pos hroom]
    refine ⟨?_, ?_, ?_, fun hmem ↦ h.nonzero (List.mem_of_mem_dropLast hmem), h.history,
      h.terminated, h.place, rfl⟩
    · change (if t.linebufIndex > 0 then t.linebufIndex - 1 else t.linebufIndex) = _
      rw [h.index, List.length_dropLast]
      split_ifs <;> omega
    · have hlength := h.length
      rw [List.length_dropLast]
      omega
    · change t.linebuf.toList.take _ = _
      have hdrop : e.line.dropLast = t.linebuf.toList.take (e.line.length - 1) :=
        calc
          e.line.dropLast = e.line.take (e.line.length - 1) := List.dropLast_eq_take
          _ = (t.linebuf.toList.take e.line.length).take (e.line.length - 1) := by rw [h.line]
          _ = t.linebuf.toList.take (e.line.length - 1) := by
            rw [List.take_take, Nat.min_eq_left (Nat.sub_le _ _)]
      rw [List.length_dropLast]
      exact hdrop.symm
  · rw [if_neg hroom, if_neg hroom]
    exact h

/-- The line that is recalled is an entry of the history. -/
theorem Shows.entry (h : Shows t e) {direction : ℤ} {place : Option ℕ}
    (hplace : t.historyIndex direction = placeIndex place) :
    Line.str (t.recalled direction) = e.entry place ∧ (t.recalled direction).strlen < kLineMax := by
  have hempty : Line.str .empty = [] := List.length_eq_zero_iff.mp Line.strlen_empty
  have hshort : Line.empty.strlen < kLineMax := by
    rw [Line.strlen_empty]
    decide
  rw [recalled, hplace, LineEditor.entry, ← h.history]
  cases place with
  | none =>
      rw [placeIndex, if_neg (by decide)]
      exact ⟨hempty, hshort⟩
  | some i =>
      rw [placeIndex, if_pos (Int.natCast_nonneg i), Int.toNat_natCast, Option.bind_some,
        List.getElem?_map]
      cases hline : t.cmdHistory[i]? with
      | none => exact ⟨hempty, hshort⟩
      | some line => exact ⟨rfl, h.terminated line (List.mem_of_getElem? hline)⟩

theorem str_strcpy (dst src : Line) :
    (Line.strcpy dst src).toList.take src.strlen = Line.str src := by
  have hstr : Line.str src = src.toList.take src.strlen := by
    conv_rhs => rw [← List.takeWhile_append_dropWhile (p := fun b : BitVec 8 ↦ decide (b ≠ 0))
      (l := src.toList)]
    rw [Line.strlen, List.take_left']
    · rfl
    · rfl
  rw [hstr]
  refine List.ext_getElem? fun i ↦ ?_
  rw [List.getElem?_take, List.getElem?_take]
  split_ifs with hi
  · rw [Vector.getElem?_toList, Vector.getElem?_toList, Line.strcpy, Vector.getElem?_ofFn]
    by_cases hlt : i < kLineMax
    · rw [dif_pos hlt, if_pos hi.le, Vector.getElem?_eq_getElem hlt]
      rfl
    · rw [dif_neg hlt, Vector.getElem?_eq_none (Nat.le_of_not_gt hlt)]
  · rfl

theorem zero_notMem_str (line : Line) : 0 ∉ Line.str line :=
  fun hmem ↦ absurd (List.mem_takeWhile_imp hmem) (by simp)

theorem Shows.historyUpDown (h : Shows t e) {direction : ℤ} {place : Option ℕ} {fuel : ℕ}
    (hplace : t.historyIndex direction = placeIndex place)
    (hreturns : t.historyUpDown font direction fuel = some t') :
    Shows t' (e.takeEntry place) := by
  obtain ⟨hstr, hshort⟩ := h.entry hplace
  obtain ⟨pixels, -, rfl⟩ := Option.map_eq_some_iff.mp hreturns
  have hlen : (e.entry place).length = (t.recalled direction).strlen := by
    rw [← hstr]
    rfl
  refine ⟨?_, ?_, ?_, ?_, h.history, h.terminated, hplace, ?_⟩
  · change ((t.recalled direction).strlen : ℤ) = (e.entry place).length
    rw [hlen]
  · exact hlen ▸ hshort
  · change (Line.strcpy t.linebuf (t.recalled direction)).toList.take (e.entry place).length =
      e.entry place
    rw [hlen, ← hstr, str_strcpy]
  · change 0 ∉ e.entry place
    rw [← hstr]
    exact zero_notMem_str _
  · change ((t.recalled direction).strlen + 1 : ℤ) = (e.entry place).length + 1
    rw [hlen]

theorem Shows.older (h : Shows t e) : t.historyIndex 1 = placeIndex e.older := by
  have hlen : t.cmdHistory.length = e.history.length := by rw [← h.history, List.length_map]
  rw [Terminal.historyIndex, if_neg (fun hne ↦ absurd hne.1 (by decide)), h.place, hlen,
    LineEditor.older]
  cases e.place with
  | none =>
      by_cases hlt : 0 < e.history.length
      · simp [placeIndex, hlt]
      · simp [placeIndex, hlt]
  | some i =>
      by_cases hlt : i + 1 < e.history.length
      · have hlt' : (i : ℤ) + 1 < e.history.length := by omega
        simp [placeIndex, hlt, hlt']
      · have hlt' : ¬ (i : ℤ) + 1 < e.history.length := by omega
        simp [placeIndex, hlt, hlt']

theorem Shows.newer (h : Shows t e) : t.historyIndex (-1) = placeIndex e.newer := by
  rw [Terminal.historyIndex, h.place, LineEditor.newer]
  cases e.place with
  | none => rfl
  | some i =>
      rw [if_pos ⟨rfl, Int.natCast_nonneg i⟩]
      cases i with
      | zero => rfl
      | succ i =>
          dsimp only [placeIndex]
          omega

theorem Shows.enter (h : Shows t e) (run : Execution) :
    Shows (t.enter font run) { e.enter with column := (t.enter font run).cursor.x } := by
  obtain ⟨buf, hbuf⟩ : ∃ buf, buf = t.linebuf.setIfInBounds t.linebufIndex.toNat 0 := ⟨_, rfl⟩
  obtain ⟨u, hu⟩ : ∃ u : Terminal, u = { t with
      linebuf := buf
      cmdHistory := if t.linebufIndex > 0 then buf :: t.cmdHistory.dropLast else t.cmdHistory
      linebufIndex := 0
      cmdHistoryIndex := -1 } := ⟨_, rfl⟩
  have henter : t.enter font run = (u.newline.executeLine font run).print font [0x3e] := by
    rw [Terminal.enter, hu, hbuf]
  obtain ⟨hindex, hhistory, hplace⟩ := executeLine_keeps font u.newline run
  have hnewline := sameLine_newline u
  have hprint := sameLine_print font (u.newline.executeLine font run) [0x3e]
  have hcmds : (t.enter font run).cmdHistory =
      if t.linebufIndex > 0 then buf :: t.cmdHistory.dropLast else t.cmdHistory := by
    rw [henter, hprint.history, hhistory, hnewline.history, hu]
  have hstr : Line.str buf = e.line := by
    rw [hbuf]
    exact h.commandLine_eq
  have hpos : t.linebufIndex > 0 ↔ e.line.isEmpty = false := by
    rw [h.index, List.isEmpty_eq_false_iff_exists_mem]
    constructor
    · intro hlt
      obtain ⟨b, hb⟩ := List.exists_mem_of_length_pos (Int.natCast_pos.mp hlt)
      exact ⟨b, hb⟩
    · rintro ⟨b, hb⟩
      exact Int.natCast_pos.mpr (List.length_pos_of_mem hb)
  have hzero : ([] : List (BitVec 8)).length < kLineMax := by decide
  refine ⟨?_, hzero, rfl, List.not_mem_nil, ?_, ?_, ?_, rfl⟩
  · rw [henter, hprint.index, hindex, hnewline.index, hu]
    rfl
  · rw [hcmds, LineEditor.enter]
    dsimp only
    by_cases hline : t.linebufIndex > 0
    · rw [if_pos hline, if_neg (by simp [hpos.mp hline]), List.map_cons, hstr, List.map_dropLast,
        h.history]
    · rw [if_neg hline, if_pos (by simpa using fun hne ↦ hline (hpos.mpr hne)), h.history]
  · intro line hmem
    rw [hcmds] at hmem
    split_ifs at hmem
    · rcases List.mem_cons.mp hmem with heq | hmem
      · change (Line.str line).length < kLineMax
        rw [heq, hstr]
        exact h.length
      · exact h.terminated line (List.mem_of_mem_dropLast hmem)
    · exact h.terminated line hmem
  · rw [henter, hprint.place, hplace, hnewline.place, hu]
    rfl

end Keys

/-! ## Runs -/

section Runs

variable {font : Font.Glyphs} {t t' : Terminal} {e : LineEditor (BitVec 8)} {op : Op}

theorem shows_start : Shows start (LineEditor.start 8) := by
  have hempty : Line.str .empty = [] := List.length_eq_zero_iff.mp Line.strlen_empty
  have hzero : ([] : List (BitVec 8)).length < kLineMax := by decide
  refine ⟨rfl, hzero, rfl, List.not_mem_nil, ?_, fun line hline ↦ ?_, rfl, rfl⟩
  · rw [start, LineEditor.start, List.map_replicate, hempty]
  · rw [List.eq_of_mem_replicate hline, Line.strlen_empty]
    decide

/-- One call is one step of the editor. -/
theorem Shows.step (h : Shows t e) (hstep : Step font t op t') :
    ∃ e', LineEditor.Step kColumns kLineMax e op.editorKey e' ∧ Shows t' e' := by
  cases hstep with
  | @print codes hascii =>
      exact ⟨_, .output e _, h.output (sameLine_print font t codes)⟩
  | @inputKey _ _ keycode ascii run fuel modifier hascii hreturns =>
      obtain ⟨u, hu, rfl⟩ := Option.map_eq_some_iff.mp hreturns
      have hstart := h.drawCursor
      change ∃ e', LineEditor.Step kColumns kLineMax e (some (editorKey keycode ascii)) e' ∧ _
      rw [editorKey]
      split_ifs at hu ⊢ with henter hback hchar hnewer holder
      · rw [← Option.some.inj hu]
        exact ⟨_, .enter e _, (hstart.enter run).drawCursor⟩
      · rw [← Option.some.inj hu]
        exact ⟨_, .backspace e, hstart.backspace.drawCursor⟩
      · rw [← Option.some.inj hu]
        exact ⟨_, .char e ascii, (hstart.typeChar hchar).drawCursor⟩
      · exact ⟨_, .newer e, (hstart.historyUpDown hstart.newer hu).drawCursor⟩
      · exact ⟨_, .older e, (hstart.historyUpDown hstart.older hu).drawCursor⟩
      · rw [← Option.some.inj hu]
        exact ⟨e, .other e, hstart.drawCursor⟩

theorem Shows.run {ops : List Op} (h : Shows t e) (hrun : Run (Step font) t ops t') :
    ∃ e', Run (LineEditor.Step kColumns kLineMax) e (ops.map Op.editorKey) e' ∧ Shows t' e' := by
  induction hrun with
  | nil => exact ⟨e, .nil e, h⟩
  | snoc run last ih =>
      obtain ⟨e₁, hrun₁, h₁⟩ := ih
      obtain ⟨e₂, hstep₂, h₂⟩ := h₁.step last
      rw [List.map_append]
      exact ⟨e₂, .snoc hrun₁ hstep₂, h₂⟩

/-- Up keys at a prompt recall an entry of the history. -/
theorem Shows.recall (h : Shows t e) (hprompt : t.cmdHistoryIndex = -1) {k : ℕ}
    (hk : k < e.history.length) {ups : List Op}
    (hups : ups.map Op.editorKey = List.replicate (k + 1) (some .older))
    (hrun : Run (Step font) t ups t') : t'.commandLine = (e.history[k]?).getD [] := by
  obtain ⟨e', heditor, hshows⟩ := h.run hrun
  have hplace : e.place = none := by
    have hindex := h.place.symm.trans hprompt
    cases hcase : e.place with
    | none => rfl
    | some i =>
        rw [hcase, placeIndex] at hindex
        omega
  rw [hups] at heditor
  rw [hshows.commandLine_eq, (LineEditor.line_of_older hplace hk heditor).1]

end Runs

end Terminal
end MinOS
