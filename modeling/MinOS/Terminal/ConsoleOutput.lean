import MinOS.Terminal.Console

/-!
# The output of the console

What the console shows is decided by its output alone, also when it goes over from the screen to
a window: a grid of the last lines.
-/

namespace MinOS

open Graphics Font TextView

namespace TextArea

/-- The rows that an output leaves: its last lines, each cut to one character less than
there are columns. -/
def text (t : TextArea) (output : List (BitVec 8)) : ℕ → List (BitVec 8) :=
  rowText t.rows (t.columns - 1) (output.splitOn 0x0a)

theorem length_text_le (t : TextArea) (output : List (BitVec 8)) (row : ℕ) :
    (t.text output row).length ≤ t.columns :=
  (length_rowText_le row).trans (Nat.sub_le _ _)

theorem isAscii_of_mem_text {t : TextArea} {output : List (BitVec 8)}
    (hascii : ∀ c ∈ output, IsAscii c) (row : ℕ) {c : BitVec 8} (hc : c ∈ t.text output row) :
    IsAscii c := by
  obtain ⟨line, hline, hmem⟩ := mem_of_mem_rowText hc
  exact hascii c (mem_of_mem_splitOn hline hmem)

theorem text_newline {t : TextArea} {output : List (BitVec 8)}
    (hroom : (output.splitOn 0x0a).length < t.rows) (row : ℕ) :
    t.text (output ++ [0x0a]) row = t.text output row := by
  rw [text, List.splitOn_append_cons_self, List.splitOn_nil]
  exact rowText_break hroom row

theorem text_newline_full {t : TextArea} {output : List (BitVec 8)}
    (hfull : t.rows ≤ (output.splitOn 0x0a).length) :
    t.text (output ++ [0x0a]) = Console.scrolled t.rows (t.text output) := by
  funext row
  rw [text, List.splitOn_append_cons_self, List.splitOn_nil]
  exact rowText_break_full hfull row

theorem text_nil (t : TextArea) (row : ℕ) : t.text [] row = [] := by
  rw [text, List.splitOn_nil, rowText_eq]
  cases [([] : List (BitVec 8))].length - t.rows + row <;> simp

end TextArea

namespace Console

variable {font : Glyphs} {fuel : ℕ} {con : Console} {output : List (BitVec 8)}

/-- The console shows the output, with the cursor behind it; on the screen its buffer
holds what is shown. -/
structure Follows (font : Glyphs) (con : Console) (output : List (BitVec 8)) : Prop where
  rows_pos : 0 < con.rows
  ascii : ∀ c ∈ output, IsAscii c
  fit : con.area.Within con.surface.shape.outline
  solid : con.surface.shape.transparentColor = none
  row : con.cursorRow = lastRow con.rows (output.splitOn 0x0a)
  column : con.cursorColumn = (con.text output con.cursorRow).length
  shows : con.Shows font con.surface (con.text output)
  buffered : con.surface.shape.onScreen → ∀ row < con.rows, con.HoldsRow row (con.text output row)

theorem Follows.ascii_push (hcon : con.Follows font output) {c : BitVec 8} (hascii : IsAscii c) :
    ∀ d ∈ output ++ [c], IsAscii d := by
  intro d hd
  rcases List.mem_append.mp hd with hd | hd
  · exact hcon.ascii d hd
  · exact List.mem_singleton.mp hd ▸ hascii

/-- What the buffer of the screen holds can be painted, also on a new surface. -/
theorem Follows.paintable (hcon : con.Follows font output) (hfuel : con.columns < fuel)
    (hscreen : con.surface.shape.onScreen) {row column : ℕ} {s : Surface}
    (hfit : con.area.Within s.shape.outline) :
    { con with cursorRow := row, cursorColumn := column, surface := s }.Paintable fuel
      (con.text output) where
  fit := hfit
  ascii := fun row _ ↦ TextArea.isAscii_of_mem_text hcon.ascii row
  length_le := con.length_text_le output
  columns_lt := hfuel
  buffer := hcon.buffered hscreen

theorem Follows.lineBreak (hcon : con.Follows font output) {con' : Console}
    (harea : con'.toTextArea = con.toTextArea) (hshape : con'.surface.shape = con.surface.shape)
    (hrow : con'.cursorRow = lastRow con.rows (output.splitOn 0x0a ++ [[]]))
    (hcolumn : con'.cursorColumn = 0)
    (hshows : con.Shows font con'.surface (con.text (output ++ [0x0a])))
    (hbuffer : con.surface.shape.onScreen → ∀ row < con.rows,
      con'.HoldsRow row (con.text (output ++ [0x0a]) row)) :
    con'.Follows font (output ++ [0x0a]) := by
  have hlines : (output ++ [0x0a]).splitOn 0x0a = output.splitOn 0x0a ++ [[]] := by
    rw [List.splitOn_append_cons_self, List.splitOn_nil]
  have hlast : con.text (output ++ [0x0a]) con'.cursorRow = [] := by
    rw [TextArea.text, hlines, hrow, rowText_lastRow _ hcon.rows_pos, List.take_nil]
  constructor
  · rw [harea]
    exact hcon.rows_pos
  · exact hcon.ascii_push (by decide)
  · rw [harea, hshape]
    exact hcon.fit
  · rw [hshape]
    exact hcon.solid
  · rw [harea, hlines]
    exact hrow
  · rw [harea, hlast, hcolumn]
    rfl
  · rw [harea]
    exact hshows
  · rw [hshape, harea]
    exact hbuffer

theorem Follows.scroll (hcon : con.Follows font output) (hfuel : con.columns < fuel)
    (hfull : con.rows ≤ (output.splitOn 0x0a).length) :
    ∃ con', (match con.surface with
        | .window w => some ({ con with cursorColumn := 0 }.scrollWindow w)
        | .screen _ => { con with cursorColumn := 0 }.scrollScreen font fuel) = some con' ∧
      con'.toTextArea = con.toTextArea ∧ con'.surface.shape = con.surface.shape ∧
        con'.Follows font (output ++ [0x0a]) := by
  have hlast : con.cursorRow = lastRow con.rows (output.splitOn 0x0a ++ [[]]) := by
    have hrow := hcon.row
    rw [lastRow] at hrow
    rw [lastRow, List.length_append, List.length_singleton]
    omega
  cases hsurface : con.surface with
  | window w =>
      have hfit := hcon.fit
      have hsolid := hcon.solid
      have hshows := hcon.shows
      rw [hsurface] at hfit hsolid hshows
      obtain ⟨s, hs, hshape, hshows'⟩ :=
        @scrollWindow_eq font { con with cursorColumn := 0 } _ w hsolid hcon.rows_pos hfit hshows
      rw [hsurface] at hs
      refine ⟨_, congrArg some hs, rfl, hshape, ?_⟩
      refine hcon.lineBreak rfl (hshape.trans (congrArg _ hsurface.symm)) hlast rfl ?_ ?_
      · rw [TextArea.text_newline_full hfull]
        exact hshows'
      · intro hscreen
        rw [hsurface] at hscreen
        exact absurd hscreen Bool.false_ne_true
  | screen fb =>
      have hscreen : con.surface.shape.onScreen = true := by
        rw [hsurface]
        rfl
      obtain ⟨b, s, hs, hshape, hshows, hb⟩ :=
        @Paintable.scrollScreen font fuel { con with cursorColumn := 0 } (con.text output)
          (hcon.paintable hfuel hscreen hcon.fit)
      rw [hsurface] at hs
      refine ⟨_, hs, rfl, hshape.trans (congrArg _ hsurface), ?_⟩
      refine hcon.lineBreak rfl hshape hlast rfl ?_ ?_
      · rw [TextArea.text_newline_full hfull]
        exact hshows
      · intro _
        rw [TextArea.text_newline_full hfull]
        exact hb

theorem Follows.newline (hcon : con.Follows font output) (hfuel : con.columns < fuel) :
    ∃ con', con.newline font fuel = some con' ∧ con'.toTextArea = con.toTextArea ∧
      con'.surface.shape = con.surface.shape ∧ con'.Follows font (output ++ [0x0a]) := by
  have hrows := hcon.rows_pos
  have hrow := hcon.row
  have hlines := List.length_pos_of_ne_nil (List.splitOn_ne_nil 0x0a output)
  rw [lastRow] at hrow
  rw [Console.newline]
  by_cases hroom : con.cursorRow < con.rows - 1
  · have hless : (output.splitOn 0x0a).length < con.rows := by omega
    have htext := TextArea.text_newline hless
    refine ⟨_, if_pos hroom, rfl, rfl, ?_⟩
    refine hcon.lineBreak rfl rfl ?_ rfl ?_ ?_
    · rw [lastRow, List.length_append, List.length_singleton]
      dsimp only
      omega
    · exact hcon.shows.congr fun row _ ↦ htext row
    · intro hscreen row hlt
      rw [htext row]
      exact hcon.buffered hscreen row hlt
  · rw [if_neg hroom]
    exact hcon.scroll hfuel (by omega)

theorem Follows.cursorRow_lt (hcon : con.Follows font output) : con.cursorRow < con.rows := by
  have hrows := hcon.rows_pos
  rw [hcon.row, lastRow]
  omega

theorem Follows.text_cursorRow (hcon : con.Follows font output)
    {lines : List (List (BitVec 8))} {line : List (BitVec 8)}
    (hout : output.splitOn 0x0a = lines ++ [line]) :
    con.cursorRow = lastRow con.rows (lines ++ [line]) ∧
      con.text output con.cursorRow = line.take (con.columns - 1) := by
  have hrow := hcon.row
  rw [hout] at hrow
  refine ⟨hrow, ?_⟩
  rw [TextArea.text, hout, hrow]
  exact rowText_lastRow lines hcon.rows_pos

theorem Follows.text_push (hcon : con.Follows font output) {c : BitVec 8} (hc : c ≠ 0x0a)
    (hroom : con.cursorColumn < con.columns - 1) :
    con.text (output ++ [c]) = Function.update (con.text output) con.cursorRow
      (con.text output con.cursorRow ++ [c]) := by
  obtain ⟨lines, line, hout, hmore⟩ := splitOn_append_singleton hc output
  obtain ⟨hrow, hline⟩ := hcon.text_cursorRow hout
  rw [hcon.column, hline, List.length_take] at hroom
  rw [hline, TextArea.text, TextArea.text, hmore, hout, hrow, rowText_push lines hcon.rows_pos,
    List.take_of_length_le (l := line) (by omega), List.take_of_length_le]
  rw [List.length_append, List.length_singleton]
  omega

theorem Follows.text_cut (hcon : con.Follows font output) {c : BitVec 8} (hc : c ≠ 0x0a)
    (hfull : ¬ con.cursorColumn < con.columns - 1) :
    con.text (output ++ [c]) = con.text output := by
  obtain ⟨lines, line, hout, hmore⟩ := splitOn_append_singleton hc output
  obtain ⟨hrow, hline⟩ := hcon.text_cursorRow hout
  rw [hcon.column, hline, List.length_take] at hfull
  rw [TextArea.text, hmore, rowText_push lines hcon.rows_pos, ← hrow,
    List.take_append_of_le_length (by omega), ← hline, ← hout]
  exact Function.update_eq_self _ _

/-- A character behind a line that is zero behind its end. -/
theorem getD_push {f : ℕ → BitVec 8} {l : List (BitVec 8)} (c : BitVec 8) {k : ℕ}
    (hf : f k = l[k]?.getD 0) : Function.update f l.length c k = (l ++ [c])[k]?.getD 0 := by
  rw [List.getElem?_append]
  by_cases hk : k = l.length
  · rw [hk, Function.update_self, if_neg (Nat.lt_irrefl _), Nat.sub_self]
    rfl
  · rw [Function.update_of_ne hk, hf]
    split_ifs with hlt
    · rfl
    · rw [List.getElem?_eq_none (by omega), List.getElem?_eq_none (by simp; omega)]

theorem lastRow_push {c : BitVec 8} (hc : c ≠ 0x0a) (rows : ℕ) (output : List (BitVec 8)) :
    lastRow rows ((output ++ [c]).splitOn 0x0a) = lastRow rows (output.splitOn 0x0a) := by
  obtain ⟨lines, line, hout, hmore⟩ := splitOn_append_singleton hc output
  rw [hout, hmore, lastRow, lastRow, List.length_append, List.length_append]
  rfl

theorem Follows.char (hcon : con.Follows font output) {c : BitVec 8} (hascii : IsAscii c)
    (hc : c ≠ 0x0a) (hroom : con.cursorColumn < con.columns - 1) :
    { con with
      surface := con.surface.paint
        (writeAscii font ⟨8 * con.cursorColumn, 16 * con.cursorRow⟩ c) con.fgColor
      buffer := Function.update con.buffer con.cursorRow
        (Function.update (con.buffer con.cursorRow) con.cursorColumn c)
      cursorColumn := con.cursorColumn + 1 }.Follows font (output ++ [c]) := by
  have htext := hcon.text_push hc hroom
  have hcolumn := hcon.column
  have hcell : (con.text output con.cursorRow).length < con.columns := by omega
  have hshows := TextArea.shows_glyph hcon.shows hcon.fit hcon.cursorRow_lt hcell c
  rw [← hcolumn, ← htext] at hshows
  constructor
  · exact hcon.rows_pos
  · exact hcon.ascii_push hascii
  · rw [Surface.shape_paint]
    exact hcon.fit
  · rw [Surface.shape_paint]
    exact hcon.solid
  · exact hcon.row.trans (lastRow_push hc _ output).symm
  · dsimp only
    rw [htext, Function.update_self, List.length_append, List.length_singleton, ← hcolumn]
  · exact hshows
  · intro hscreen row hrow k hk
    rw [Surface.shape_paint] at hscreen
    have hold := hcon.buffered hscreen row hrow k hk
    dsimp only
    rw [htext]
    by_cases hr : row = con.cursorRow
    · subst hr
      rw [Function.update_self, Function.update_self, hcolumn]
      exact getD_push c hold
    · rw [Function.update_of_ne hr, Function.update_of_ne hr]
      exact hold

theorem Follows.cut (hcon : con.Follows font output) {c : BitVec 8} (hascii : IsAscii c)
    (hc : c ≠ 0x0a) (hfull : ¬ con.cursorColumn < con.columns - 1) :
    con.Follows font (output ++ [c]) := by
  have htext := hcon.text_cut hc hfull
  constructor
  · exact hcon.rows_pos
  · exact hcon.ascii_push hascii
  · exact hcon.fit
  · exact hcon.solid
  · exact hcon.row.trans (lastRow_push hc _ output).symm
  · rw [htext]
    exact hcon.column
  · rw [htext]
    exact hcon.shows
  · rw [htext]
    exact hcon.buffered

theorem Follows.putChar (hcon : con.Follows font output) (hfuel : con.columns < fuel)
    {c : BitVec 8} (hascii : IsAscii c) :
    ∃ con', con.putChar font fuel c = some con' ∧ con'.toTextArea = con.toTextArea ∧
      con'.surface.shape = con.surface.shape ∧ con'.Follows font (output ++ [c]) := by
  by_cases hc : c = 0x0a
  · rw [hc, Console.putChar, if_pos rfl]
    exact hcon.newline hfuel
  · rw [Console.putChar, if_neg hc]
    by_cases hroom : con.cursorColumn < con.columns - 1
    · exact ⟨_, if_pos hroom, rfl, Surface.shape_paint _ _ _, hcon.char hascii hc hroom⟩
    · exact ⟨con, if_neg hroom, rfl, rfl, hcon.cut hascii hc hroom⟩

theorem Follows.putString (hcon : con.Follows font output) (hfuel : con.columns < fuel)
    {l : List (BitVec 8)} (hascii : ∀ c ∈ l, IsAscii c) :
    ∃ con', con.putString font fuel l = some con' ∧ con'.toTextArea = con.toTextArea ∧
      con'.surface.shape = con.surface.shape ∧ con'.Follows font (output ++ l) := by
  apply Transition.foldlM_invariant (fun (pre : List (BitVec 8)) (con' : Console) ↦
    con'.toTextArea = con.toTextArea ∧ con'.surface.shape = con.surface.shape ∧
      con'.Follows font (output ++ pre))
  · rintro pre c hpre con' ⟨harea, hshape, hcon'⟩
    have hc : c ∈ l := hpre.subset (by simp)
    obtain ⟨con'', hput, harea', hshape', hcon''⟩ :=
      hcon'.putChar (by rwa [harea]) (hascii c hc)
    rw [List.append_assoc] at hcon''
    exact ⟨con'', hput, harea'.trans harea, hshape'.trans hshape, hcon''⟩
  · rw [List.append_nil]
    exact ⟨rfl, rfl, hcon⟩

/-- `SetWindow` paints on the window what was on the screen. -/
theorem Follows.setWindow (hcon : con.Follows font output) (hfuel : con.columns < fuel)
    (hscreen : con.surface.shape.onScreen) {w : Window} (hsolid : w.transparentColor = none)
    (hfit : con.area.Within w.outline) :
    ∃ con', con.setWindow font fuel w = some con' ∧ con'.toTextArea = con.toTextArea ∧
      con'.surface.shape.onScreen = false ∧ con'.Follows font output := by
  obtain ⟨_, hrefresh, s, rfl, hshape, hshows⟩ :=
    @Paintable.refresh font fuel { con with surface := .window w } (con.text output)
      (hcon.paintable hfuel hscreen hfit)
  refine ⟨_, hrefresh, rfl, by rw [hshape]; rfl, ?_⟩
  constructor
  · exact hcon.rows_pos
  · exact hcon.ascii
  · rw [hshape]
    exact hfit
  · rw [hshape]
    exact hsolid
  · exact hcon.row
  · exact hcon.column
  · exact hshows
  · rw [hshape]
    intro hwindow
    exact absurd hwindow Bool.false_ne_true

variable {fgColor bgColor : PixelColor} {rows columns : ℕ} {screen : FrameBuffer}

theorem start_follows (hfuel : kMaxColumns < fuel) (hrows : 0 < rows)
    (hfit : (ofSize fgColor bgColor rows columns).area.Within screen.outline) :
    ∃ con, start font fuel fgColor bgColor rows columns screen = some con ∧
      con.toTextArea = ofSize fgColor bgColor rows columns ∧ con.surface.shape.onScreen ∧
      con.Follows font [] := by
  have htext := TextArea.text_nil (ofSize fgColor bgColor rows columns)
  obtain ⟨_, hrefresh, s, rfl, hshape, hshows⟩ :=
    @Paintable.refresh font fuel
      { ofSize fgColor bgColor rows columns with
        buffer := fun _ _ ↦ 0
        cursorRow := 0
        cursorColumn := 0
        surface := .screen screen }
      (fun _ ↦ [])
      ⟨hfit, by simp, by simp, (Nat.min_le_right _ _).trans_lt hfuel, fun row _ k _ ↦ by simp⟩
  refine ⟨_, hrefresh, rfl, by rw [hshape]; rfl, ?_⟩
  have hpos : 0 < (ofSize fgColor bgColor rows columns).rows := Nat.lt_min.mpr ⟨hrows, by decide⟩
  constructor
  · exact hpos
  · simp
  · rw [hshape]
    exact hfit
  · rw [hshape]
    rfl
  · rw [List.splitOn_nil, lastRow, List.length_singleton]
    dsimp only
    omega
  · exact (congrArg List.length (htext 0)).symm
  · exact hshows.congr fun row _ ↦ htext row
  · intro _ row _ k _
    exact (congrArg (fun l : List (BitVec 8) ↦ l[k]?.getD 0) (htext row)).symm

structure After (font : Glyphs) (t : TextArea) (calls : List Call) (con : Console) : Prop where
  area : con.toTextArea = t
  onScreen : calls.countP Call.isSetWindow = 0 → con.surface.shape.onScreen
  follows : con.Follows font (calls.flatMap Call.output)

theorem After.exec {t : TextArea} {calls : List Call} (hcon : After font t calls con)
    (hfuel : t.columns < fuel) {call : Call} (htakes : t.Takes call)
    (honce : (calls ++ [call]).countP Call.isSetWindow ≤ 1) :
    ∃ con', con.exec font fuel call = some con' ∧ After font t (calls ++ [call]) con' := by
  obtain ⟨rfl, hscreen, hcon⟩ := hcon
  have houtput : (calls ++ [call]).flatMap Call.output =
      calls.flatMap Call.output ++ call.output := by
    rw [List.flatMap_append, List.flatMap_singleton]
  cases call with
  | putString l =>
      obtain ⟨con', hput, harea, hshape, hcon'⟩ := hcon.putString hfuel htakes
      refine ⟨con', hput, harea, ?_, houtput ▸ hcon'⟩
      rw [hshape, List.countP_append]
      exact fun h ↦ hscreen (Nat.eq_zero_of_add_eq_zero_right h)
  | setWindow w =>
      have hset : (calls ++ [Call.setWindow w]).countP Call.isSetWindow =
          calls.countP Call.isSetWindow + 1 := by
        rw [List.countP_append]
        rfl
      rw [hset] at honce
      obtain ⟨con', hwindow, harea, -, hcon'⟩ :=
        hcon.setWindow hfuel (hscreen (by omega)) htakes.1 htakes.2
      rw [Call.output, List.append_nil] at houtput
      exact ⟨con', hwindow, harea, fun h ↦ by omega, houtput ▸ hcon'⟩

/-- A sequence of calls that sets a window at most once. -/
theorem run_follows (hfuel : kMaxColumns < fuel) (hrows : 0 < rows)
    (hfit : (ofSize fgColor bgColor rows columns).area.Within screen.outline) {calls : List Call}
    (hcalls : ∀ call ∈ calls, (ofSize fgColor bgColor rows columns).Takes call)
    (honce : calls.countP Call.isSetWindow ≤ 1) :
    ∃ con, (start font fuel fgColor bgColor rows columns screen).bind
        (calls.foldlM (exec font fuel)) = some con ∧
      After font (ofSize fgColor bgColor rows columns) calls con := by
  obtain ⟨con₀, hstart, harea, hscreen, hcon⟩ :=
    @start_follows font fuel fgColor bgColor rows columns screen hfuel hrows hfit
  rw [hstart, Option.bind_some]
  apply Transition.foldlM_invariant (After font (ofSize fgColor bgColor rows columns))
  · intro pre call hpre con hafter
    apply hafter.exec ((Nat.min_le_right _ _).trans_lt hfuel)
    · exact hcalls call (hpre.subset (by simp))
    · exact (hpre.sublist.countP_le (p := Call.isSetWindow)).trans honce
  · exact ⟨harea, fun _ ↦ hscreen, hcon⟩

/-- The console shows the last lines of its output, each cut to one character less than
there are columns, whether and whenever a window was set. -/
theorem shows_output (hfuel : kMaxColumns < fuel) (hrows : 0 < rows)
    (hfit : (ofSize fgColor bgColor rows columns).area.Within screen.outline) {calls : List Call}
    (hcalls : ∀ call ∈ calls, (ofSize fgColor bgColor rows columns).Takes call)
    (honce : calls.countP Call.isSetWindow ≤ 1) :
    ∃ con, (start font fuel fgColor bgColor rows columns screen).bind
        (calls.foldlM (exec font fuel)) = some con ∧
      (ofSize fgColor bgColor rows columns).Shows font con.surface
        ((ofSize fgColor bgColor rows columns).text (calls.flatMap Call.output)) := by
  obtain ⟨con, hrun, hafter⟩ := @run_follows font fuel _ _ _ _ _ hfuel hrows hfit _ hcalls honce
  have hshows := hafter.follows.shows
  rw [hafter.area] at hshows
  exact ⟨con, hrun, hshows⟩

def fullCells : Glyphs where
  hankakuSize := 4096
  hankaku := fun _ ↦ 0xff
  freeType := fun _ ↦ none

/-- Two rows of two characters; the window is set between the first line, which scrolls
out, and the rest. -/
theorem shows_output_twoRows :
    ∃ con, (start fullCells 300 ⟨255, 255, 255⟩ ⟨0, 0, 0⟩ 2 3
        (.ofSize 24 32 .kPixelRGBResv8BitPerColor)).bind
        ([.putString [0x61, 0x0a], .setWindow (.ofSize 24 32 .kPixelRGBResv8BitPerColor),
          .putString [0x62, 0x0a, 0x63, 0x64, 0x65]].foldlM (exec fullCells 300)) = some con ∧
      con.surface.shown ⟨8, 0⟩ = ⟨0, 0, 0⟩ ∧ con.surface.shown ⟨8, 16⟩ = ⟨255, 255, 255⟩ ∧
        con.surface.shown ⟨16, 16⟩ = ⟨0, 0, 0⟩ := by
  obtain ⟨con, hrun, hshows⟩ :=
    @shows_output fullCells 300 ⟨255, 255, 255⟩ ⟨0, 0, 0⟩ 2 3
      (.ofSize 24 32 .kPixelRGBResv8BitPerColor) (by decide) (by decide) (by decide)
      [.putString [0x61, 0x0a], .setWindow (.ofSize 24 32 .kPixelRGBResv8BitPerColor),
        .putString [0x62, 0x0a, 0x63, 0x64, 0x65]]
      (by
        intro call hcall
        simp only [List.mem_cons, List.not_mem_nil, or_false] at hcall
        rcases hcall with rfl | rfl | rfl
        · change ∀ c ∈ _, _
          decide
        · exact ⟨rfl, by decide⟩
        · change ∀ c ∈ _, _
          decide)
      (by decide)
  refine ⟨con, hrun, ?_, ?_, ?_⟩
  · exact (hshows ⟨8, 0⟩ (by decide)).trans (by decide)
  · exact (hshows ⟨8, 16⟩ (by decide)).trans (by decide)
  · exact (hshows ⟨16, 16⟩ (by decide)).trans (by decide)

end Console
end MinOS
