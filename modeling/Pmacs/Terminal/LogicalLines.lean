/-
  The logical lines that rows make (screen.rs).

  * `chains`, `logicalLines`: soft-wrapped rows of a line are joined, second columns and the
    blanks at its end dropped.
  * `joinRows_eq`: what a resize joins, when the rows of each line follow on each other.
  * `FrontCut`: what is left of the lines when rows go at the front.
-/
import Pmacs.Lib.Runs
import Pmacs.Terminal.ReflowShape

namespace Pmacs

open Lib List Option

/-! ## Lines -/

def goesOn (row next : TerminalRow) : Bool :=
  row.softWrapped && row.logicalLineId == next.logicalLineId

def chains (rows : List TerminalRow) : List (List TerminalRow) := rows.splitBy goesOn

def rowCells (rows : List TerminalRow) : List Cell := (rows.map (·.cells)).flatten

/-- The text of a line: second columns and the blanks at the end are dropped. -/
def lineText (cells : List Cell) : List Cell :=
  (cells.filter fun x => !x.isContinuation).rdropWhile fun x => x.glyph == .char ' '

def chainId (chain : List TerminalRow) : ℕ := chain.head?.elim 0 (·.logicalLineId)

def lineOf (chain : List TerminalRow) : ℕ × List Cell := (chainId chain, lineText (rowCells chain))

def logicalLines (rows : List TerminalRow) : List (ℕ × List Cell) := (chains rows).map lineOf

/-- What is left of the lines when some of them go at the front, and it may be the front of
    the first that is left. -/
def FrontCut (lines left : List (ℕ × List Cell)) : Prop :=
  ∃ gone, lines = gone ++ left ∨
    ∃ id front rest tail, lines = gone ++ (id, front ++ rest) :: tail ∧ left = (id, rest) :: tail

/-! ### Text -/

section
variable {cells cells' : List Cell}

/-- What shows of a cell: not the style of a second column. -/
def Cell.face (x : Cell) : Glyph × Option Style :=
  (x.glyph, if x.isContinuation then none else some x.style)

/-- The cells that are no second columns can be read off the faces. -/
theorem filter_eq_filterMap_face {cells : List Cell} : (cells.filter fun x => !x.isContinuation) =
      (cells.map Cell.face).filterMap fun f => f.2.map (Cell.mk f.1) := by
  induction cells with
  | nil => rfl
  | cons x cells ih =>
    rw [filter_cons, map_cons, filterMap_cons, ih, Cell.face]; cases hx : x.isContinuation <;> simp

theorem lineText_congr (h : cells.map Cell.face = cells'.map Cell.face) :
    lineText cells = lineText cells' := by
  rw [lineText, lineText, filter_eq_filterMap_face, filter_eq_filterMap_face, h]

theorem lineText_append_blanks {blanks : List Cell} (h : ∀ x ∈ blanks, x.glyph = .char ' ') :
    lineText (cells ++ blanks) = lineText cells := by
  have hfilter : (blanks.filter fun x => !x.isContinuation) = blanks :=
    filter_eq_self.2 fun x hx => by simp [Cell.isContinuation, h x hx]
  rw [lineText, filter_append, hfilter, lineText]
  induction blanks using List.reverseRecOn with
  | nil => rw [append_nil]
  | append_singleton blanks x ih =>
    have hx := h x (mem_append_right _ (mem_singleton_self x))
    rw [← append_assoc, rdropWhile_concat_pos _ _ _ (by simp [hx])]
    refine ih (fun y hy => h y (mem_append_left _ hy)) (filter_eq_self.2 fun y hy => ?_)
    simp [Cell.isContinuation, h y (mem_append_left _ hy)]

theorem rdropWhile_append {α : Type*} (p : α → Bool) (as bs : List α) :
    ∃ front, (as ++ bs).rdropWhile p = front ++ bs.rdropWhile p := by
  induction bs using List.reverseRecOn with
  | nil => exact ⟨as.rdropWhile p, by simp⟩
  | append_singleton bs b ih =>
    by_cases hb : p b = true
    · rw [← append_assoc, rdropWhile_concat_pos _ _ _ hb, rdropWhile_concat_pos _ _ _ hb]
      exact ih
    rw [← append_assoc, rdropWhile_concat_neg _ _ _ hb, rdropWhile_concat_neg _ _ _ hb]
    exact ⟨as, by rw [append_assoc]⟩

theorem lineText_append (front cells : List Cell) :
    ∃ gone, lineText (front ++ cells) = gone ++ lineText cells := by
  rw [lineText, filter_append]
  exact rdropWhile_append _ _ _

end

/-! ### Chains -/

section
variable {rows chain : List TerminalRow} {row : TerminalRow}

theorem runs_chains {rows : List TerminalRow} : Runs goesOn (chains rows) := runs_splitBy _ _

theorem flatten_chains (rows : List TerminalRow) : (chains rows).flatten = rows :=
  flatten_splitBy _ _

theorem id_of_goesOn {next : TerminalRow} (h : goesOn row next = true) :
    row.softWrapped = true ∧ row.logicalLineId = next.logicalLineId := by
  simpa [goesOn] using h

theorem chainId_of_mem (h : chain.IsChain fun x y => goesOn x y) :
    ∀ row ∈ chain, row.logicalLineId = chainId chain := by
  induction chain with
  | nil => simp
  | cons first chain ih =>
    intro row hrow
    rcases mem_cons.1 hrow with rfl | hrow
    · rfl
    cases chain with
    | nil => cases hrow
    | cons second chain =>
      obtain ⟨hon, hrest⟩ := isChain_cons_cons.1 h
      exact (ih hrest row hrow).trans (id_of_goesOn hon).2.symm

theorem rowCells_append (rows rows' : List TerminalRow) :
    rowCells (rows ++ rows') = rowCells rows ++ rowCells rows' := by
  simp [rowCells]

theorem lineOf_drop (h : chain.IsChain fun x y => goesOn x y) {k : ℕ} (hk : k < chain.length) :
    ∃ front, lineOf chain = ((lineOf (chain.drop k)).1, front ++ (lineOf (chain.drop k)).2) := by
  obtain ⟨front, hfront⟩ := lineText_append (rowCells (chain.take k)) (rowCells (chain.drop k))
  refine ⟨front, ?_⟩
  rw [← rowCells_append, take_append_drop] at hfront
  have hid : chainId (chain.drop k) = chainId chain := by
    rw [chainId, head?_drop, getElem?_eq_getElem hk]; exact chainId_of_mem h _ (getElem_mem hk)
  simp only [lineOf, hfront, hid]

/-- **Rows go at the front**: whole lines, and the front of the one after. -/
theorem frontCut_dropRuns {G : List (List TerminalRow)} (h : Runs goesOn G) :
    ∀ k : ℕ, FrontCut (G.map lineOf) ((dropRuns k G).map lineOf) := by
  induction h with
  | nil => exact fun k => ⟨[], .inl rfl⟩
  | @cons g G hne hchain hapart h ih =>
    intro k; unfold dropRuns
    split_ifs with hk
    · obtain ⟨front, hfront⟩ := lineOf_drop hchain hk
      exact ⟨[], .inr ⟨_, front, _, G.map lineOf, by rw [map_cons, hfront]; rfl, rfl⟩⟩
    obtain ⟨gone, hall | ⟨id, front, rest, tail, hall, hleft⟩⟩ := ih (k - g.length)
    · exact ⟨lineOf g :: gone, .inl (by rw [map_cons, hall]; rfl)⟩
    · exact ⟨lineOf g :: gone, .inr ⟨id, front, rest, tail, by rw [map_cons, hall]; rfl, hleft⟩⟩

end

/-! ## Joining -/

def usedPart (cols : ℕ) (cursor : CursorPlace) (row : TerminalRow) : List Cell :=
  row.cells.take (usedCells cols cursor row)

def joinedLine (cols : ℕ) (cursor : CursorPlace) (chain : List TerminalRow) : LogicalLine :=
  ⟨chainId chain, chain.head?.elim 0 (·.cellOffset), (chain.map (usedPart cols cursor)).flatten⟩

/-- A row that goes on with the line of the row before starts where that ends. -/
def Contiguous (cols : ℕ) (rows : List TerminalRow) : Prop :=
  rows.IsChain fun row next => goesOn row next = true → next.cellOffset = row.cellOffset + cols

instance (cols : ℕ) (rows : List TerminalRow) : Decidable (Contiguous cols rows) :=
  inferInstanceAs (Decidable (List.IsChain _ _))

section
variable {cols : ℕ} {fill : Cell} {cursor : CursorPlace} {rows chain : List TerminalRow}
  {row : TerminalRow} {acc : List LogicalLine × Bool} {line : LogicalLine}
  {lines : List LogicalLine}

theorem usedPart_wrapped (h : HasLength cols row.cells) (hwrapped : row.softWrapped = true) :
    usedPart cols cursor row = row.cells := by
  have hused : usedCells cols cursor row = cols := by simp [usedCells, hwrapped]
  rw [usedPart, hused]
  exact take_of_length_le h.le

theorem resizeCells_self {cells : List Cell} : resizeCells cells.length fill cells = cells := by
  simp [resizeCells]

section
variable (hlen : ∀ r ∈ row :: rows, HasLength cols r.cells)
include hlen

theorem joinRows_onto
    (hchain : (row :: rows).IsChain fun x y => goesOn x y) (hrows : Contiguous cols (row :: rows))
    (hid : line.id = row.logicalLineId) (hoffset : row.cellOffset = line.base + line.cells.length) :
    (row :: rows).foldlM (joinRow cols fill cursor) (line :: lines, true) =
      some ({ line with
          cells := line.cells ++ ((row :: rows).map (usedPart cols cursor)).flatten } :: lines,
        ((row :: rows).getLast (cons_ne_nil _ _)).softWrapped) := by
  induction rows generalizing row line with
  | nil =>
    have hrow := hlen row mem_cons_self
    rw [foldlM_cons, joinRow_onto hrow hid, checkedSub_of_le (by omega), hoffset,
      Nat.add_sub_cancel_left, map_some, resizeCells_self]
    simp [usedPart]
  | cons next rows ih =>
    have hrow := hlen row mem_cons_self; obtain ⟨hon, hchain⟩ := isChain_cons_cons.1 hchain
    obtain ⟨hnext, hrows⟩ := isChain_cons_cons.1 hrows; obtain ⟨hwrapped, hids⟩ := id_of_goesOn hon
    have hused := @usedPart_wrapped cols cursor row hrow hwrapped
    have hwidth : (usedPart cols cursor row).length = cols := hused ▸ hrow
    have hrest := @ih next ⟨line.id, line.base, line.cells ++ usedPart cols cursor row⟩
      (fun r hr => hlen r (mem_cons_of_mem _ hr)) hchain hrows (hid.trans hids)
      (by rw [hnext hon, hoffset, length_append, hwidth, add_assoc])
    rw [foldlM_cons, joinRow_onto hrow hid, checkedSub_of_le (by omega), hoffset,
      Nat.add_sub_cancel_left, map_some, resizeCells_self, bind_eq_bind, bind_some, hwrapped]
    refine hrest.trans ?_; simp

theorem joinRows_chain
    (hchain : (row :: rows).IsChain fun x y => goesOn x y) (hrows : Contiguous cols (row :: rows))
    (hacc : ∀ base, joinChain acc ≠ some (row.logicalLineId, base)) :
    (row :: rows).foldlM (joinRow cols fill cursor) acc =
      some (joinedLine cols cursor (row :: rows) :: acc.1,
        ((row :: rows).getLast (cons_ne_nil _ _)).softWrapped) := by
  have hrow := hlen row mem_cons_self
  rw [foldlM_cons, joinRow_start hrow hacc, bind_eq_bind, bind_some]
  cases rows with
  | nil => simp [joinedLine, usedPart, chainId]
  | cons next rows =>
    obtain ⟨hon, hchain⟩ := isChain_cons_cons.1 hchain
    obtain ⟨hnext, hrows⟩ := isChain_cons_cons.1 hrows; obtain ⟨hwrapped, hids⟩ := id_of_goesOn hon
    have hused := @usedPart_wrapped cols cursor row hrow hwrapped
    have hwidth : (usedPart cols cursor row).length = cols := hused ▸ hrow
    have hrest := @joinRows_onto cols fill cursor rows next
      ⟨row.logicalLineId, row.cellOffset, usedPart cols cursor row⟩ acc.1
      (fun r hr => hlen r (mem_cons_of_mem _ hr)) hchain hrows hids (by rw [hnext hon, hwidth])
    rw [hwrapped]
    refine hrest.trans ?_; simp [joinedLine, chainId]

end

theorem joinRows_runs {G : List (List TerminalRow)} (h : Runs goesOn G)
    (hlen : ∀ r ∈ G.flatten, HasLength cols r.cells) (hrows : Contiguous cols G.flatten)
    (hacc : ∀ first ∈ G.flatten.head?, ∀ base, joinChain acc ≠ some (first.logicalLineId, base)) :
    ∃ wrapped, G.flatten.foldlM (joinRow cols fill cursor) acc =
      some ((G.map (joinedLine cols cursor)).reverse ++ acc.1, wrapped) := by
  induction h generalizing acc with
  | nil => exact ⟨acc.2, rfl⟩
  | @cons g G hne hchain hapart h ih =>
    cases g with
    | nil => exact absurd rfl hne
    | cons row rows =>
      rw [flatten_cons] at hlen hrows hacc ⊢
      have hfirst := @joinRows_chain cols fill cursor rows row acc
        (fun r hr => hlen r (mem_append_left _ hr)) hchain hrows.left_of_append (hacc row (by simp))
      have hnew : ∀ next ∈ G.flatten.head?, ∀ base,
          joinChain (joinedLine cols cursor (row :: rows) :: acc.1,
            ((row :: rows).getLast hne).softWrapped) ≠ some (next.logicalLineId, base) := by
        intro next hnext base heq
        have hend := hapart _ (getLast?_eq_getLast_of_ne_nil hne) next hnext
        obtain ⟨line, lines, hacc', hid, -⟩ := joinChain_some heq
        obtain ⟨hline, hwrapped⟩ := Prod.mk.inj hacc'; obtain ⟨rfl, -⟩ := cons.inj hline
        have hlast := chainId_of_mem hchain _ (getLast_mem hne)
        have hnext' : chainId (row :: rows) = next.logicalLineId := hid
        rw [goesOn, hwrapped, hlast, hnext'] at hend; simp at hend
      obtain ⟨wrapped, hrest⟩ := ih (fun r hr => hlen r (mem_append_right _ hr))
        hrows.right_of_append hnew
      refine ⟨wrapped, ?_⟩; rw [foldlM_append, hfirst, bind_eq_bind, bind_some]
      refine hrest.trans ?_; simp

/-- **What a resize joins**, when the rows of each line follow on each other. -/
theorem joinRows_eq (hlen : ∀ r ∈ rows, HasLength cols r.cells) (hrows : Contiguous cols rows) :
    joinRows cols fill cursor rows = some ((chains rows).map (joinedLine cols cursor)) := by
  have hflat := flatten_chains rows
  obtain ⟨wrapped, hfold⟩ := @joinRows_runs cols fill cursor ([], false) (chains rows)
    (runs_chains) (by rwa [hflat]) (by rwa [hflat]) nofun
  rw [hflat] at hfold
  rw [joinRows, hfold]
  simp

end

end Pmacs
