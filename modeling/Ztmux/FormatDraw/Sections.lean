import Ztmux.FormatDraw.Fair

/-!
The five arrangements keep their sections apart, as far as they do. Those without a
list, with a list on the left and on the right always do. The centred ones put the
list in the middle of its space whatever stands beside it, so the sections beside
it have to fit in half of what the list leaves.
-/

namespace Ztmux.FormatDraw

/-- The sections of one row. The absolute centre is drawn over the row. -/
def separate : Align → List (List Section)
  | .absoluteCentre => [[.left, .centre, .right], [.absoluteCentre, .list, .after]]
  | .default | .left | .centre | .right => [[.left, .list, .after, .right, .centre]]

/-- The same with the markers of the list. -/
def separateMarkers : Align → List (List Section)
  | .absoluteCentre =>
      [[.left, .centre, .right], [.absoluteCentre, .listLeft, .list, .listRight, .after]]
  | .default | .left | .centre | .right =>
      [[.left, .listLeft, .list, .listRight, .after, .right, .centre]]

theorem separate_subset (align : Align) :
    ∀ group ∈ separate align, ∃ wider ∈ separateMarkers align, group ⊆ wider := by
  cases align <;> decide

/-- The columns of the list once the sections `others` have theirs. -/
def listRoom (available : UInt32) (others : List Section) (cx : Widths) : Nat :=
  min (cx .list).toNat (available.toNat - natTotal others cx)

/-- What the centred arrangements need: of the space between left and right, or of
the whole line, each half is as wide as what has to fit in it. -/
def FitsAround (available : UInt32) (cx : Widths) : Align → Prop
  | .centre =>
      let room := listRoom available [.after, .centre, .right, .left] cx
      let gap := available.toNat - (cx .right).toNat - (cx .left).toNat
      room = 0 ∨ room / 2 + (cx .centre).toNat ≤ gap / 2 ∧
        (room + 1) / 2 + (cx .after).toNat ≤ (gap + 1) / 2
  | .absoluteCentre =>
      let gap := available.toNat - (cx .right).toNat - (cx .left).toNat
      let absoluteCentre := min (cx .absoluteCentre).toNat available.toNat
      let after := min (cx .after).toNat (available.toNat - (cx .absoluteCentre).toNat)
      let room := listRoom available [.after, .absoluteCentre] cx
      (gap = 0 ∨ (cx .centre).toNat ≤ gap / 2) ∧
        after ≤ (available.toNat - room - absoluteCentre + 1) / 2
  | .default | .left | .right => True

/-- A bound for each section, in the order of `Section.all`. -/
def bounds (left centre right absoluteCentre list listLeft listRight after : Nat) : Section → Nat
  | .left => left
  | .centre => centre
  | .right => right
  | .absoluteCentre => absoluteCentre
  | .list => list
  | .listLeft => listLeft
  | .listRight => listRight
  | .after => after

theorem natTotal_le (screens : Screens) : natTotal Section.all screens.cx < 2 ^ 32 :=
  Nat.lt_of_le_of_lt screens.fits screens.size.toNat_lt

theorem kept_none {available : UInt32} {cx width : Widths}
    (h : Trimmed available cx width [.centre, .right, .left]) :
    (width .left).toNat + (width .centre).toNat + (width .right).toNat ≤ available.toNat ∧
      (width .centre).toNat ≤ (cx .centre).toNat ∧ (width .right).toNat ≤ (cx .right).toNat := by
  have htotal := h.natTotal_le
  simp only [natTotal_cons, natTotal_nil] at htotal
  exact ⟨by omega, h.le _ (by simp), h.le _ (by simp)⟩

theorem kept_side {available : UInt32} {cx width : Widths}
    (h : Trimmed available cx width [.centre, .list, .right, .after, .left]) :
    (width .left).toNat + (width .list).toNat + (width .after).toNat + (width .centre).toNat +
        (width .right).toNat ≤ available.toNat ∧
      (width .list).toNat ≤ (cx .list).toNat ∧ (width .centre).toNat ≤ (cx .centre).toNat ∧
      (width .right).toNat ≤ (cx .right).toNat ∧ (width .after).toNat ≤ (cx .after).toNat := by
  have htotal := h.natTotal_le
  simp only [natTotal_cons, natTotal_nil] at htotal
  exact ⟨by omega, h.le _ (by simp), h.le _ (by simp), h.le _ (by simp), h.le _ (by simp)⟩

theorem formatDrawNone_fair (available : UInt32) (screens : Screens) :
    Fair available (separateMarkers .default)
      (formatDrawNone available screens Canvas.blank).2 := by
  have hfits := natTotal_le screens
  simp only [Section.all, natTotal_cons, natTotal_nil] at hfits
  have hsum : natTotal [.centre, .right, .left] screens.cx < 2 ^ 32 := by
    simp only [natTotal_cons, natTotal_nil]
    omega
  obtain ⟨width, hrun, htrimmed, -⟩ :=
    trim_run available (by decide : [Section.centre, .right, .left].Nodup) hsum Canvas.blank
  obtain ⟨hle, hcentreLe, hrightLe⟩ := kept_none htrimmed
  clear htrimmed hfits hsum
  have hhigh : (available - width .right).toNat = available.toNat - (width .right).toNat :=
    toNat_minus (by omega)
  rw [formatDrawNone, run_bind hrun, run_bind (put_run _ _ _ _ _),
    run_bind (putRight_run (by omega) (by omega) _), run_bind (minus_run (by omega) _)]
  obtain ⟨centre, hcentre, hcentrePart, hcentreLow, hcentreHigh⟩ := putHalfway_run
    (by omega : (width .left).toNat + (width .centre).toNat ≤ (available - width .right).toNat)
    (by omega : (width .centre).toNat ≤ (screens.cx .centre).toNat)
    ((Canvas.blank.add [⟨.left, 0, 0, width .left⟩] false).add
      [⟨.right, available - width .right, screens.cx .right - width .right, width .right⟩] false)
  obtain ⟨absolute, habsolute, habsolutePart, habsoluteHigh⟩ :=
    putAbsoluteCentre_run available screens (Canvas.add _ [centre] false)
  rw [run_bind hcentre, habsolute]
  apply fair_of_spans
    (bounds 0 (width .left).toNat (available.toNat - (width .right).toNat) 0 0 0 0 0)
    (bounds (width .left).toNat (available.toNat - (width .right).toNat) available.toNat
      available.toNat 0 0 0 0)
    [(.left, [⟨.left, 0, 0, width .left⟩]),
      (.right, [⟨.right, available - width .right, screens.cx .right - width .right,
        width .right⟩]), (.centre, [centre]), (.absoluteCentre, [absolute])]
  case hcanvas => simp [Canvas.add, Canvas.blank]
  case hnodup => simp
  case hspans =>
    simp only [List.forall_mem_cons, bounds]
    exact ⟨span_single (by simp) (by simp), span_single (by omega) (by omega),
      span_of_part hcentrePart (by omega) (by omega),
      span_of_part habsolutePart (by omega) (by omega), by simp⟩
  case hinside =>
    intro part
    cases part <;> simp only [bounds] <;> constructor <;> omega
  case hapart =>
    intro group hgroup
    rw [separateMarkers, List.mem_singleton] at hgroup
    refine ⟨[.listLeft, .list, .listRight, .after, .left, .centre, .right], ?_, ?_⟩
    · rw [hgroup]
      decide
    · simp only [List.isChain_cons_cons, List.isChain_singleton, and_true, bounds]
      and_intros <;> omega

theorem formatDrawLeft_fair (available : UInt32) (screens : Screens) (focusStart focusEnd : Int32) :
    Fair available (separateMarkers .left)
      (formatDrawLeft available screens focusStart focusEnd Canvas.blank).2 := by
  have hfits := natTotal_le screens
  simp only [Section.all, natTotal_cons, natTotal_nil] at hfits
  have hsum : natTotal [.centre, .list, .right, .after, .left] screens.cx < 2 ^ 32 := by
    simp only [natTotal_cons, natTotal_nil]
    omega
  obtain ⟨width, hrun, htrimmed, -⟩ := trim_run available
    (by decide : [Section.centre, .list, .right, .after, .left].Nodup) hsum Canvas.blank
  obtain ⟨hle, hlistLe, hcentreLe, hrightLe, hafterLe⟩ := kept_side htrimmed
  clear htrimmed hfits hsum
  have havailable := available.toNat_lt
  rw [formatDrawLeft, run_bind hrun]
  split_ifs with hlist
  · exact formatDrawNone_fair available screens
  have hhigh : (available - width .right).toNat = available.toNat - (width .right).toNat :=
    toNat_minus (by omega)
  have hafter : (width .left + width .list).toNat = (width .left).toNat + (width .list).toNat :=
    toNat_plus (by omega)
  have hlow : (width .left + width .list + width .after).toNat =
      (width .left).toNat + (width .list).toNat + (width .after).toNat := by
    rw [toNat_plus (by omega), hafter]
  rw [run_bind (put_run _ _ _ _ _), run_bind (putRight_run (by omega) (by omega) _),
    run_bind (put_run _ _ _ _ _), run_bind (minus_run (by omega) _)]
  obtain ⟨centre, hcentre, hcentrePart, hcentreLow, hcentreHigh⟩ := putHalfway_run
    (by omega : (width .left + width .list + width .after).toNat + (width .centre).toNat ≤
      (available - width .right).toNat)
    (by omega : (width .centre).toNat ≤ (screens.cx .centre).toNat) (Canvas.add _ [_] false)
  rw [run_bind hcentre]
  obtain ⟨leftMarker, rightMarker, list, low, high, hputList, hleftMarker, hrightMarker,
    hlistSpan, hbounds⟩ := formatDrawPutList_run screens (focusOr focusStart focusEnd 0).1
      (focusOr focusStart focusEnd 0).2
      (by omega : (width .left).toNat + (width .list).toNat < 2 ^ 32)
      (by omega : (width .list).toNat ≤ (screens.cx .list).toNat) (Canvas.add _ [centre] false)
  obtain ⟨absolute, habsolute, habsolutePart, habsoluteHigh⟩ :=
    putAbsoluteCentre_run available screens
      (Canvas.add _ (leftMarker ++ rightMarker ++ list) false)
  rw [run_bind hputList, habsolute]
  apply fair_of_spans
    (bounds 0 ((width .left).toNat + (width .list).toNat + (width .after).toNat)
      (available.toNat - (width .right).toNat) 0 low (width .left).toNat high
      ((width .left).toNat + (width .list).toNat))
    (bounds (width .left).toNat (available.toNat - (width .right).toNat) available.toNat
      available.toNat high low ((width .left).toNat + (width .list).toNat)
      ((width .left).toNat + (width .list).toNat + (width .after).toNat))
    [(.left, [⟨.left, 0, 0, width .left⟩]),
      (.right, [⟨.right, available - width .right, screens.cx .right - width .right,
        width .right⟩]), (.after, [⟨.after, width .left + width .list, 0, width .after⟩]),
      (.centre, [centre]), (.listLeft, leftMarker), (.listRight, rightMarker), (.list, list),
      (.absoluteCentre, [absolute])]
  case hcanvas => simp [Canvas.add, Canvas.blank]
  case hnodup => simp
  case hspans =>
    simp only [List.forall_mem_cons, bounds]
    exact ⟨span_single (by simp) (by simp), span_single (by omega) (by omega),
      span_single (by omega) (by omega), span_of_part hcentrePart (by omega) (by omega),
      hleftMarker, hrightMarker, hlistSpan, span_of_part habsolutePart (by omega) (by omega),
      by simp⟩
  case hinside =>
    intro part
    cases part <;> simp only [bounds] <;> constructor <;> omega
  case hapart =>
    intro group hgroup
    rw [separateMarkers, List.mem_singleton] at hgroup
    refine ⟨[.left, .listLeft, .list, .listRight, .after, .centre, .right], ?_, ?_⟩
    · rw [hgroup]
      decide
    · simp only [List.isChain_cons_cons, List.isChain_singleton, and_true, bounds]
      and_intros <;> omega

theorem formatDrawRight_fair (available : UInt32) (screens : Screens)
    (focusStart focusEnd : Int32) : Fair available (separateMarkers .right)
      (formatDrawRight available screens focusStart focusEnd Canvas.blank).2 := by
  have hfits := natTotal_le screens
  simp only [Section.all, natTotal_cons, natTotal_nil] at hfits
  have hsum : natTotal [.centre, .list, .right, .after, .left] screens.cx < 2 ^ 32 := by
    simp only [natTotal_cons, natTotal_nil]
    omega
  obtain ⟨width, hrun, htrimmed, -⟩ := trim_run available
    (by decide : [Section.centre, .list, .right, .after, .left].Nodup) hsum Canvas.blank
  obtain ⟨hle, hlistLe, hcentreLe, hrightLe, hafterLe⟩ := kept_side htrimmed
  clear htrimmed hfits hsum
  have havailable := available.toNat_lt
  rw [formatDrawRight, run_bind hrun]
  split_ifs with hlist
  · exact formatDrawNone_fair available screens
  have hafter : (available - width .after).toNat = available.toNat - (width .after).toNat :=
    toNat_minus (by omega)
  have hright : (available - width .right).toNat = available.toNat - (width .right).toNat :=
    toNat_minus (by omega)
  have hrightList : (available - width .right - width .list).toNat =
      available.toNat - (width .right).toNat - (width .list).toNat := by
    rw [toNat_minus (by omega), hright]
  have hhigh : (available - width .right - width .list - width .after).toNat =
      available.toNat - (width .right).toNat - (width .list).toNat - (width .after).toNat := by
    rw [toNat_minus (by omega), hrightList]
  have hlistEnd : (available - width .list).toNat = available.toNat - (width .list).toNat :=
    toNat_minus (by omega)
  have hoffset : (available - width .list - width .after).toNat =
      available.toNat - (width .list).toNat - (width .after).toNat := by
    rw [toNat_minus (by omega), hlistEnd]
  rw [run_bind (put_run _ _ _ _ _), run_bind (minus_run (by omega) _),
    run_bind (minus_run (by omega) _), run_bind (put_run _ _ _ _ _),
    run_bind (minus_run (by omega) _), run_bind (minus_run (by omega) _),
    run_bind (minus_run (by omega) _), run_bind (put_run _ _ _ _ _),
    run_bind (minus_run (by omega) _), run_bind (minus_run (by omega) _),
    run_bind (minus_run (by omega) _)]
  obtain ⟨centre, hcentre, hcentrePart, hcentreLow, hcentreHigh⟩ := putHalfway_run
    (by omega : (width .left).toNat + (width .centre).toNat ≤
      (available - width .right - width .list - width .after).toNat)
    (by omega : (width .centre).toNat ≤ (screens.cx .centre).toNat) (Canvas.add _ [_] false)
  rw [run_bind hcentre]
  obtain ⟨leftMarker, rightMarker, list, low, high, hputList, hleftMarker, hrightMarker,
    hlistSpan, hbounds⟩ := formatDrawPutList_run screens (focusOr focusStart focusEnd 0).1
      (focusOr focusStart focusEnd 0).2
      (by omega : (available - width .list - width .after).toNat + (width .list).toNat < 2 ^ 32)
      (by omega : (width .list).toNat ≤ (screens.cx .list).toNat) (Canvas.add _ [centre] false)
  obtain ⟨absolute, habsolute, habsolutePart, habsoluteHigh⟩ :=
    putAbsoluteCentre_run available screens
      (Canvas.add _ (leftMarker ++ rightMarker ++ list) false)
  rw [run_bind (minus_run (by omega) _), run_bind (minus_run (by omega) _), run_bind hputList,
    habsolute]
  apply fair_of_spans
    (bounds 0 (width .left).toNat (available - width .right - width .list - width .after).toNat 0
      low (available - width .list - width .after).toNat high (available - width .after).toNat)
    (bounds (width .left).toNat (available - width .right - width .list - width .after).toNat
      (available - width .list - width .after).toNat available.toNat high low
      (available - width .after).toNat available.toNat)
    [(.left, [⟨.left, 0, 0, width .left⟩]),
      (.after, [⟨.after, available - width .after, screens.cx .after - width .after,
        width .after⟩]),
      (.right, [⟨.right, available - width .right - width .list - width .after, 0,
        width .right⟩]),
      (.centre, [centre]), (.listLeft, leftMarker), (.listRight, rightMarker), (.list, list),
      (.absoluteCentre, [absolute])]
  case hcanvas => simp [Canvas.add, Canvas.blank]
  case hnodup => simp
  case hspans =>
    have hend : (available - width .list - width .after).toNat + (width .list).toNat =
        (available - width .after).toNat := by omega
    rw [hend] at hrightMarker
    simp only [List.forall_mem_cons, bounds]
    exact ⟨span_single (by simp) (by simp), span_single (by omega) (by omega),
      span_single (by omega) (by omega), span_of_part hcentrePart (by omega) (by omega),
      hleftMarker, hrightMarker, hlistSpan, span_of_part habsolutePart (by omega) (by omega),
      by simp⟩
  case hinside =>
    intro part
    cases part <;> simp only [bounds] <;> constructor <;> omega
  case hapart =>
    intro group hgroup
    rw [separateMarkers, List.mem_singleton] at hgroup
    refine ⟨[.left, .centre, .right, .listLeft, .list, .listRight, .after], ?_, ?_⟩
    · rw [hgroup]
      decide
    · simp only [List.isChain_cons_cons, List.isChain_singleton, and_true, bounds]
      and_intros <;> omega

/-! ### The list in the centre -/

/-- What is drawn with a list in the centre. Only the offset of the centre section
can wrap. -/
theorem formatDrawCentre_run {available : UInt32} {screens : Screens} {room : Nat}
    (hroom : listRoom available [.after, .centre, .right, .left] screens.cx = room)
    (hpos : room ≠ 0) (focusStart focusEnd : Int32) :
    ∃ (middle width : UInt32) (leftMarker rightMarker list : List Put) (low high : Nat)
      (absolute : Put), middle.toNat = (screens.cx .left).toNat +
        (available.toNat - (screens.cx .right).toNat - (screens.cx .left).toNat) / 2 ∧
      width.toNat = room ∧ (middle - width / 2).toNat = middle.toNat - room / 2 ∧
      Span .listLeft leftMarker (middle.toNat - room / 2) low ∧
      Span .listRight rightMarker high (middle.toNat - room / 2 + room) ∧
      Span .list list low high ∧ middle.toNat - room / 2 ≤ low ∧ low ≤ high ∧
      high ≤ middle.toNat - room / 2 + room ∧
      absolute.part = .absoluteCentre ∧
      absolute.offset.toNat + absolute.width.toNat ≤ available.toNat ∧
      (formatDrawCentre available screens focusStart focusEnd Canvas.blank).2 =
        ⟨[⟨.left, 0, 0, screens.cx .left⟩, ⟨.right, available - screens.cx .right,
            screens.cx .right - screens.cx .right, screens.cx .right⟩,
          ⟨.centre, middle - width / 2 - screens.cx .centre, 0, screens.cx .centre⟩,
          ⟨.after, middle - width / 2 + width, 0, screens.cx .after⟩] ++
          (leftMarker ++ rightMarker ++ list) ++ [absolute],
          decide ((screens.cx .centre).toNat > middle.toNat - room / 2)⟩ := by
  have hfits := natTotal_le screens
  simp only [Section.all, natTotal_cons, natTotal_nil] at hfits
  have hsum : natTotal [.list, .after, .centre, .right, .left] screens.cx < 2 ^ 32 := by
    simp only [natTotal_cons, natTotal_nil]
    omega
  obtain ⟨width, hrun, htrimmed, -⟩ := trim_run available
    (by decide : [Section.list, .after, .centre, .right, .left].Nodup) hsum Canvas.blank
  -- The list is trimmed first, so with some of it left the others are whole.
  have hothers : natTotal [.after, .centre, .right, .left] screens.cx + room ≤ available.toNat := by
    rw [listRoom] at hroom
    omega
  obtain ⟨hlistIs, hafterIs, hcentreIs, hrightIs, hleftIs, -⟩ := htrimmed
  have hlist : (width .list).toNat = room := hlistIs.trans hroom
  simp only [natTotal_cons, natTotal_nil] at hothers hafterIs hcentreIs hrightIs hleftIs
  have hleft : width .left = screens.cx .left :=
    UInt32.toNat.inj (hleftIs.trans (min_eq_left (by omega)))
  have hright : width .right = screens.cx .right :=
    UInt32.toNat.inj (hrightIs.trans (min_eq_left (by omega)))
  have hcentre : width .centre = screens.cx .centre :=
    UInt32.toNat.inj (hcentreIs.trans (min_eq_left (by omega)))
  have hafter : width .after = screens.cx .after :=
    UInt32.toNat.inj (hafterIs.trans (min_eq_left (by omega)))
  have hne : width .list ≠ 0 := fun hzero => hpos (by rw [← hlist, hzero]; rfl)
  have hlistLe : (width .list).toNat ≤ (screens.cx .list).toNat := by
    rw [hlistIs]
    exact min_le_left _ _
  have hrightLe : (width .right).toNat ≤ (screens.cx .right).toNat := by rw [hright]
  have hle : (width .left).toNat + (width .list).toNat + (width .after).toNat +
      (width .centre).toNat + (width .right).toNat ≤ available.toNat := by
    rw [hleft, hlist, hafter, hcentre, hright]
    omega
  clear hafterIs hcentreIs hrightIs hleftIs hlistIs hothers hroom hfits hsum
  have havailable := available.toNat_lt
  rw [formatDrawCentre, run_bind hrun, if_neg hne]
  obtain ⟨middle, hmiddle, hmiddleNat⟩ := middleOf_run
    (by omega : (width .left).toNat + (width .right).toNat ≤ available.toNat)
      (Canvas.add _ [_] false)
  have hhalf : (width .list / 2).toNat = room / 2 := by rw [toNat_half, hlist]
  have hlow : (middle - width .list / 2).toNat = middle.toNat - room / 2 := by
    rw [toNat_minus (by omega), hhalf]
  rw [run_bind (put_run _ _ _ _ _), run_bind (putRight_run (by omega) (by omega) _),
    run_bind hmiddle, run_bind (minus_run (by omega) _), run_bind (minus_run_add _ _ _),
    run_bind (put_run _ _ _ _ _), run_bind (minus_run (by omega) _),
    run_bind (put_run _ _ _ _ _)]
  obtain ⟨leftMarker, rightMarker, list, low, high, hputList, hleftMarker, hrightMarker,
    hlistSpan, hbounds⟩ := formatDrawPutList_run screens
      (focusOr focusStart focusEnd ((screens.cx .list).toInt32 / 2)).1
      (focusOr focusStart focusEnd ((screens.cx .list).toInt32 / 2)).2
      (by omega : (middle - width .list / 2).toNat + (width .list).toNat < 2 ^ 32)
      (by omega : (width .list).toNat ≤ (screens.cx .list).toNat) (Canvas.add _ [_] false)
  obtain ⟨absolute, habsolute, habsolutePart, habsoluteHigh⟩ :=
    putAbsoluteCentre_run available screens
      (Canvas.add _ (leftMarker ++ rightMarker ++ list) false)
  rw [run_bind (minus_run (by omega) _), run_bind hputList, habsolute]
  rw [hlow, hlist] at hrightMarker hbounds
  rw [hlow] at hleftMarker
  refine ⟨middle, width .list, leftMarker, rightMarker, list, low, high, absolute, ?_, hlist, hlow,
    hleftMarker, hrightMarker, hlistSpan, hbounds.1, hbounds.2.1, hbounds.2.2, habsolutePart,
    habsoluteHigh, ?_⟩
  · rw [hmiddleNat, hleft, hright]
  · rw [hleft, hright, hcentre, hafter, hlow]
    simp [Canvas.add, Canvas.blank]

theorem formatDrawCentre_empty {available : UInt32} {screens : Screens}
    (hroom : listRoom available [.after, .centre, .right, .left] screens.cx = 0)
    (focusStart focusEnd : Int32) : Fair available (separateMarkers .centre)
      (formatDrawCentre available screens focusStart focusEnd Canvas.blank).2 := by
  have hfits := natTotal_le screens
  simp only [Section.all, natTotal_cons, natTotal_nil] at hfits
  have hsum : natTotal [.list, .after, .centre, .right, .left] screens.cx < 2 ^ 32 := by
    simp only [natTotal_cons, natTotal_nil]
    omega
  obtain ⟨width, hrun, htrimmed, -⟩ := trim_run available
    (by decide : [Section.list, .after, .centre, .right, .left].Nodup) hsum Canvas.blank
  have hlist : width .list = 0 := UInt32.toNat.inj (htrimmed.1.trans hroom)
  rw [formatDrawCentre, run_bind hrun, if_pos hlist]
  exact formatDrawNone_fair available screens

theorem formatDrawCentre_fair {available : UInt32} {screens : Screens}
    (hfits : FitsAround available screens.cx .centre) (focusStart focusEnd : Int32) :
    Fair available (separateMarkers .centre)
      (formatDrawCentre available screens focusStart focusEnd Canvas.blank).2 := by
  rw [FitsAround] at hfits
  generalize hroom : listRoom available [.after, .centre, .right, .left] screens.cx = room at hfits
  by_cases hzero : room = 0
  · exact formatDrawCentre_empty (hroom.trans hzero) focusStart focusEnd
  obtain ⟨hcentreFits, hafterFits⟩ := hfits.resolve_left hzero
  obtain ⟨middle, width, leftMarker, rightMarker, list, low, high, absolute, hmiddle, hwidth, hlow,
    hleftMarker, hrightMarker, hlistSpan, hlowLe, hlowHigh, hhighLe, habsolutePart, habsoluteHigh,
    hrun⟩ := formatDrawCentre_run hroom hzero focusStart focusEnd
  have hothers : (screens.cx .left).toNat + (screens.cx .right).toNat ≤ available.toNat := by
    simp only [listRoom, natTotal_cons, natTotal_nil] at hroom
    omega
  clear hroom
  have havailable := available.toNat_lt
  have hcentre : (middle - width / 2 - screens.cx .centre).toNat =
      middle.toNat - room / 2 - (screens.cx .centre).toNat := by
    rw [toNat_minus (by omega), hlow]
  have hafter : (middle - width / 2 + width).toNat = middle.toNat - room / 2 + room := by
    rw [toNat_plus (by omega), hlow, hwidth]
  have hright : (available - screens.cx .right).toNat =
      available.toNat - (screens.cx .right).toNat := toNat_minus (by omega)
  rw [hrun, decide_eq_false (by omega)]
  apply fair_of_spans
    (bounds 0 (screens.cx .left).toNat (available.toNat - (screens.cx .right).toNat) 0 low
      (middle.toNat - room / 2) high (middle.toNat - room / 2 + room))
    (bounds (screens.cx .left).toNat (middle.toNat - room / 2) available.toNat available.toNat
      high low (middle.toNat - room / 2 + room)
      (available.toNat - (screens.cx .right).toNat))
    [(.left, [⟨.left, 0, 0, screens.cx .left⟩]),
      (.right, [⟨.right, available - screens.cx .right, screens.cx .right - screens.cx .right,
        screens.cx .right⟩]),
      (.centre, [⟨.centre, middle - width / 2 - screens.cx .centre, 0, screens.cx .centre⟩]),
      (.after, [⟨.after, middle - width / 2 + width, 0, screens.cx .after⟩]),
      (.listLeft, leftMarker), (.listRight, rightMarker), (.list, list),
      (.absoluteCentre, [absolute])]
  case hcanvas => simp
  case hnodup => simp
  case hspans =>
    simp only [List.forall_mem_cons, bounds]
    exact ⟨span_single (by simp) (by simp), span_single (by omega) (by omega),
      span_single (by omega) (by omega), span_single (by omega) (by omega),
      hleftMarker, hrightMarker, hlistSpan, span_of_part habsolutePart (by omega) (by omega),
      by simp⟩
  case hinside =>
    intro part
    cases part <;> simp only [bounds] <;> constructor <;> omega
  case hapart =>
    intro group hgroup
    rw [separateMarkers, List.mem_singleton] at hgroup
    refine ⟨[.left, .centre, .listLeft, .list, .listRight, .after, .right], ?_, ?_⟩
    · rw [hgroup]
      decide
    · simp only [List.isChain_cons_cons, List.isChain_singleton, and_true, bounds]
      and_intros <;> omega

theorem Fair.sides {available : UInt32} {group : List Section} {groups : List (List Section)}
    {canvas : Canvas} (h : Fair available groups canvas) (hgroup : group ∈ groups) {a b : Put}
    (hputs : List.Sublist [a, b] canvas.puts) (ha : a.part ∈ group) (hb : b.part ∈ group) :
    a.width.toNat = 0 ∨ b.width.toNat = 0 ∨
      a.offset.toNat + a.width.toNat ≤ b.offset.toNat ∨
      b.offset.toNat + b.width.toNat ≤ a.offset.toNat := by
  have hdisjoint : Disjoint a.columns b.columns :=
    List.rel_of_pairwise_cons ((h.apart group hgroup).sublist hputs) (List.mem_singleton_self b)
      ha hb
  by_contra hall
  have hmem : ∀ put : Put, put = a ∨ put = b →
      max a.offset.toNat b.offset.toNat ∈ put.columns := by
    rintro put (rfl | rfl) <;> exact Finset.mem_Ico.mpr (by omega)
  exact Finset.disjoint_left.mp hdisjoint (hmem a (.inl rfl)) (hmem b (.inr rfl))

theorem Fair.end_le {available : UInt32} {groups : List (List Section)} {canvas : Canvas}
    (h : Fair available groups canvas) {put : Put} (hput : put ∈ canvas.puts) :
    put.width.toNat = 0 ∨ put.offset.toNat + put.width.toNat ≤ available.toNat := by
  by_contra hall
  have hlast : put.offset.toNat + put.width.toNat - 1 ∈ put.columns :=
    Finset.mem_Ico.mpr (by omega)
  have hlt := Finset.mem_range.mp (h.inside put hput hlast)
  omega

theorem fitsAround_centre_of_fair {available : UInt32} {screens : Screens}
    {focusStart focusEnd : Int32} (h : Fair available (separate .centre)
      (formatDrawCentre available screens focusStart focusEnd Canvas.blank).2) :
    FitsAround available screens.cx .centre := by
  rw [FitsAround]
  generalize hroom : listRoom available [.after, .centre, .right, .left] screens.cx = room
  by_cases hzero : room = 0
  · exact .inl hzero
  obtain ⟨middle, width, leftMarker, rightMarker, list, low, high, absolute, hmiddle, hwidth, hlow,
    -, -, -, -, -, -, -, -, hrun⟩ := formatDrawCentre_run hroom hzero focusStart focusEnd
  have hothers : (screens.cx .left).toNat + (screens.cx .right).toNat + room ≤ available.toNat := by
    simp only [listRoom, natTotal_cons, natTotal_nil] at hroom
    omega
  clear hroom
  have havailable := available.toNat_lt
  rw [hrun] at h
  have hcentreLe := of_decide_eq_false h.exact
  have hcentre : (middle - width / 2 - screens.cx .centre).toNat =
      middle.toNat - room / 2 - (screens.cx .centre).toNat := by
    rw [toNat_minus (by omega), hlow]
  have hafter : (middle - width / 2 + width).toNat = middle.toNat - room / 2 + room := by
    rw [toNat_plus (by omega), hlow, hwidth]
  have hright : (available - screens.cx .right).toNat =
      available.toNat - (screens.cx .right).toNat := toNat_minus (by omega)
  -- The centre keeps off the left, and `after` off the right and in the line.
  have hleftCentre := h.sides List.mem_cons_self
    (.cons_cons _ (.cons _ (.cons_cons _ (List.nil_sublist _)))) (by simp) (by simp)
  have hrightAfter := h.sides List.mem_cons_self
    (.cons _ (.cons_cons _ (.cons _ (.cons_cons _ (List.nil_sublist _))))) (by simp) (by simp)
  have hafterEnd := h.end_le (.tail _ (.tail _ (.tail _ (.head _))))
  simp only [hcentre, hafter, hright, UInt32.toNat_zero] at hleftCentre hrightAfter hafterEnd
  clear hcentre hafter hright h hrun
  refine .inr ⟨?_, ?_⟩
  · clear hrightAfter hafterEnd
    omega
  · clear hleftCentre
    omega

/-! ### The list in the centre of the whole line -/

/-- What the two trims of this arrangement leave. -/
structure TrimmedOver (available : UInt32) (cx width : Widths) : Prop where
  left : (width .left).toNat = min (cx .left).toNat available.toNat
  right : (width .right).toNat = min (cx .right).toNat (available.toNat - (cx .left).toNat)
  centre : (width .centre).toNat =
    min (cx .centre).toNat (available.toNat - (cx .right).toNat - (cx .left).toNat)
  absoluteCentre : (width .absoluteCentre).toNat = min (cx .absoluteCentre).toNat available.toNat
  after : (width .after).toNat =
    min (cx .after).toNat (available.toNat - (cx .absoluteCentre).toNat)
  list : (width .list).toNat = listRoom available [.after, .absoluteCentre] cx

theorem TrimmedOver.row_le {available : UInt32} {cx width : Widths}
    (h : TrimmedOver available cx width) :
    (width .left).toNat + (width .right).toNat ≤ available.toNat := by
  rw [h.left, h.right]
  omega

theorem TrimmedOver.over_le {available : UInt32} {cx width : Widths}
    (h : TrimmedOver available cx width) :
    (width .list).toNat + (width .absoluteCentre).toNat ≤ available.toNat := by
  rw [h.list, h.absoluteCentre, listRoom, natTotal_cons, natTotal_cons]
  omega

theorem trimmedOver_run (available : UInt32) (screens : Screens) (canvas : Canvas) :
    ∃ width width', trim available [.centre, .right, .left] screens.cx canvas = (width, canvas) ∧
      trim available [.list, .after, .absoluteCentre] width canvas = (width', canvas) ∧
      TrimmedOver available screens.cx width' := by
  have hfits := natTotal_le screens
  simp only [Section.all, natTotal_cons, natTotal_nil] at hfits
  have hsum : natTotal [.centre, .right, .left] screens.cx < 2 ^ 32 := by
    simp only [natTotal_cons, natTotal_nil]
    omega
  obtain ⟨width, hrun, htrimmed, hsame⟩ := trim_run available
    (by decide : [Section.centre, .right, .left].Nodup) hsum canvas
  have hlist : width .list = screens.cx .list := hsame _ (by decide)
  have hafter : width .after = screens.cx .after := hsame _ (by decide)
  have hcentre : width .absoluteCentre = screens.cx .absoluteCentre := hsame _ (by decide)
  have hsum' : natTotal [.list, .after, .absoluteCentre] width < 2 ^ 32 := by
    simp only [natTotal_cons, natTotal_nil, hlist, hafter, hcentre]
    omega
  obtain ⟨width', hrun', htrimmed', hsame'⟩ := trim_run available
    (by decide : [Section.list, .after, .absoluteCentre].Nodup) hsum' canvas
  simp only [Trimmed, natTotal_cons, natTotal_nil, hlist, hafter, hcentre, Nat.add_zero,
    Nat.sub_zero] at htrimmed htrimmed'
  obtain ⟨hcentreIs, hrightIs, hleftIs, -⟩ := htrimmed
  obtain ⟨hlistIs, hafterIs, habsoluteIs, -⟩ := htrimmed'
  refine ⟨width, width', hrun, hrun', ?_, ?_, ?_, habsoluteIs, hafterIs, hlistIs⟩
  · rw [hsame' _ (by decide), hleftIs]
  · rw [hsame' _ (by decide), hrightIs]
  · rw [hsame' _ (by decide), hcentreIs, Nat.sub_sub]

/-- What is drawn with a list in the centre of the line. Only the offset of the
centre section can wrap. -/
theorem formatDrawAbsoluteCentre_run (available : UInt32) (screens : Screens)
    (focusStart focusEnd : Int32) :
    ∃ (width : Widths) (middle offset : UInt32) (leftMarker rightMarker list : List Put)
      (low high : Nat), TrimmedOver available screens.cx width ∧
      middle.toNat = (width .left).toNat +
        (available.toNat - (width .right).toNat - (width .left).toNat) / 2 ∧
      offset.toNat =
        (available.toNat - (width .list).toNat - (width .absoluteCentre).toNat) / 2 ∧
      (offset + width .absoluteCentre + width .list).toNat =
        offset.toNat + (width .absoluteCentre).toNat + (width .list).toNat ∧
      Span .listLeft leftMarker (offset.toNat + (width .absoluteCentre).toNat) low ∧
      Span .listRight rightMarker high
        (offset.toNat + (width .absoluteCentre).toNat + (width .list).toNat) ∧
      Span .list list low high ∧ offset.toNat + (width .absoluteCentre).toNat ≤ low ∧
      low ≤ high ∧
      high ≤ offset.toNat + (width .absoluteCentre).toNat + (width .list).toNat ∧
      (formatDrawAbsoluteCentre available screens focusStart focusEnd Canvas.blank).2 =
        ⟨[⟨.left, 0, 0, width .left⟩, ⟨.right, available - width .right,
            screens.cx .right - width .right, width .right⟩,
          ⟨.centre, middle - width .centre, 0, width .centre⟩,
          ⟨.absoluteCentre, offset, 0, width .absoluteCentre⟩] ++
          (leftMarker ++ rightMarker ++ list) ++
          [⟨.after, offset + width .absoluteCentre + width .list, 0, width .after⟩],
          decide ((width .centre).toNat > middle.toNat)⟩ := by
  obtain ⟨width₁, width, hrun₁, hrun₂, htrimmed⟩ :=
    trimmedOver_run available screens Canvas.blank
  have hrightLe : (width .right).toNat ≤ (screens.cx .right).toNat := by
    rw [htrimmed.right]
    exact min_le_left _ _
  have hlistLe : (width .list).toNat ≤ (screens.cx .list).toNat := by
    rw [htrimmed.list]
    exact min_le_left _ _
  have hrow := htrimmed.row_le
  have hover := htrimmed.over_le
  have havailable := available.toNat_lt
  have hlistEnd : (available - width .list).toNat = available.toNat - (width .list).toNat :=
    toNat_minus (by omega)
  have hoffset : ((available - width .list - width .absoluteCentre) / 2).toNat =
      (available.toNat - (width .list).toNat - (width .absoluteCentre).toNat) / 2 := by
    rw [toNat_half, toNat_minus (by omega), hlistEnd]
  generalize hat : (available - width .list - width .absoluteCentre) / 2 = offset at hoffset
  have hlistLow : (offset + width .absoluteCentre).toNat =
      offset.toNat + (width .absoluteCentre).toNat := toNat_plus (by omega)
  have hlistHigh : (offset + width .absoluteCentre + width .list).toNat =
      offset.toNat + (width .absoluteCentre).toNat + (width .list).toNat := by
    rw [toNat_plus (by omega), hlistLow]
  rw [formatDrawAbsoluteCentre, run_bind hrun₁, run_bind hrun₂]
  obtain ⟨middle, hmiddle, hmiddleNat⟩ := middleOf_run hrow (Canvas.add _ [_] false)
  rw [run_bind (put_run _ _ _ _ _), run_bind (putRight_run (by omega) (by omega) _),
    run_bind hmiddle, run_bind (minus_run_add _ _ _), run_bind (put_run _ _ _ _ _),
    run_bind (minus_run (by omega) _), run_bind (minus_run (by omega) _)]
  dsimp only
  rw [hat, run_bind (put_run _ _ _ _ _)]
  obtain ⟨leftMarker, rightMarker, list, low, high, hputList, hleftMarker, hrightMarker,
    hlistSpan, hbounds⟩ := formatDrawPutList_run screens
      (focusOr focusStart focusEnd ((screens.cx .list).toInt32 / 2)).1
      (focusOr focusStart focusEnd ((screens.cx .list).toInt32 / 2)).2
      (by omega : (offset + width .absoluteCentre).toNat + (width .list).toNat < 2 ^ 32)
      hlistLe (Canvas.add _ [_] false)
  rw [run_bind hputList, put_run]
  rw [hlistLow] at hleftMarker hrightMarker hbounds
  refine ⟨width, middle, offset, leftMarker, rightMarker, list, low, high, htrimmed, hmiddleNat,
    hoffset, hlistHigh, hleftMarker, hrightMarker, hlistSpan, hbounds.1, hbounds.2.1, hbounds.2.2,
    ?_⟩
  simp [Canvas.add, Canvas.blank]

theorem formatDrawAbsoluteCentre_fair {available : UInt32} {screens : Screens}
    (hfits : FitsAround available screens.cx .absoluteCentre) (focusStart focusEnd : Int32) :
    Fair available (separateMarkers .absoluteCentre)
      (formatDrawAbsoluteCentre available screens focusStart focusEnd Canvas.blank).2 := by
  obtain ⟨width, middle, offset, leftMarker, rightMarker, list, low, high, htrimmed, hmiddle,
    hoffset, hafter, hleftMarker, hrightMarker, hlistSpan, hlowLe, hlowHigh, hhighLe, hrun⟩ :=
    formatDrawAbsoluteCentre_run available screens focusStart focusEnd
  have hrow := htrimmed.row_le
  have hcentreFits : (width .centre).toNat ≤
      (available.toNat - (width .right).toNat - (width .left).toNat) / 2 := by
    rw [htrimmed.left, htrimmed.right, htrimmed.centre]
    have := hfits.1
    omega
  have hafterFits : (width .after).toNat ≤
      (available.toNat - (width .list).toNat - (width .absoluteCentre).toNat + 1) / 2 := by
    rw [htrimmed.after, htrimmed.list, htrimmed.absoluteCentre]
    exact hfits.2
  have hover := htrimmed.over_le
  clear htrimmed hfits
  have hcentre : (middle - width .centre).toNat = middle.toNat - (width .centre).toNat :=
    toNat_minus (by omega)
  have hright : (available - width .right).toNat = available.toNat - (width .right).toNat :=
    toNat_minus (by omega)
  rw [hrun, decide_eq_false (by omega)]
  apply fair_of_spans
    (bounds 0 (width .left).toNat (available.toNat - (width .right).toNat) offset.toNat low
      (offset.toNat + (width .absoluteCentre).toNat) high
      (offset.toNat + (width .absoluteCentre).toNat + (width .list).toNat))
    (bounds (width .left).toNat middle.toNat available.toNat
      (offset.toNat + (width .absoluteCentre).toNat) high low
      (offset.toNat + (width .absoluteCentre).toNat + (width .list).toNat) available.toNat)
    [(.left, [⟨.left, 0, 0, width .left⟩]),
      (.right, [⟨.right, available - width .right, screens.cx .right - width .right,
        width .right⟩]),
      (.centre, [⟨.centre, middle - width .centre, 0, width .centre⟩]),
      (.absoluteCentre, [⟨.absoluteCentre, offset, 0, width .absoluteCentre⟩]),
      (.listLeft, leftMarker), (.listRight, rightMarker), (.list, list),
      (.after, [⟨.after, offset + width .absoluteCentre + width .list, 0, width .after⟩])]
  case hcanvas => simp
  case hnodup => simp
  case hspans =>
    simp only [List.forall_mem_cons, bounds]
    exact ⟨span_single (by simp) (by simp), span_single (by omega) (by omega),
      span_single (by omega) (by omega), span_single (le_refl _) (le_refl _), hleftMarker,
      hrightMarker, hlistSpan, span_single hafter.ge (by omega), by simp⟩
  case hinside =>
    intro part
    cases part <;> simp only [bounds] <;> constructor <;> omega
  case hapart =>
    intro group hgroup
    simp only [separateMarkers, List.mem_cons, List.not_mem_nil, or_false] at hgroup
    rcases hgroup with rfl | rfl
    · refine ⟨[.left, .centre, .right], by decide, ?_⟩
      simp only [List.isChain_cons_cons, List.isChain_singleton, and_true, bounds]
      and_intros <;> omega
    · refine ⟨[.absoluteCentre, .listLeft, .list, .listRight, .after], by decide, ?_⟩
      simp only [List.isChain_cons_cons, List.isChain_singleton, and_true, bounds]
      and_intros <;> omega

theorem fitsAround_absoluteCentre_of_fair {available : UInt32} {screens : Screens}
    {focusStart focusEnd : Int32} (h : Fair available (separate .absoluteCentre)
      (formatDrawAbsoluteCentre available screens focusStart focusEnd Canvas.blank).2) :
    FitsAround available screens.cx .absoluteCentre := by
  obtain ⟨width, middle, offset, leftMarker, rightMarker, list, low, high, htrimmed, hmiddle,
    hoffset, hafter, -, -, -, -, -, -, hrun⟩ :=
    formatDrawAbsoluteCentre_run available screens focusStart focusEnd
  rw [hrun] at h
  have hcentreLe := of_decide_eq_false h.exact
  have hcentre : (middle - width .centre).toNat = middle.toNat - (width .centre).toNat :=
    toNat_minus (by omega)
  have hleftCentre := h.sides List.mem_cons_self
    (.cons_cons _ (.cons _ (.cons_cons _ (List.nil_sublist _)))) (by simp) (by simp)
  have hafterEnd := h.end_le (List.mem_append_right _ List.mem_cons_self)
  simp only [hcentre, hafter, UInt32.toNat_zero] at hleftCentre hafterEnd
  clear h hrun
  have hover := htrimmed.over_le
  refine ⟨?_, ?_⟩
  · have hcentreFits : (width .centre).toNat ≤
        (available.toNat - (width .right).toNat - (width .left).toNat) / 2 := by
      clear hafterEnd
      omega
    rw [htrimmed.left, htrimmed.right, htrimmed.centre] at hcentreFits
    clear hleftCentre hafterEnd
    omega
  · rw [← htrimmed.after, ← htrimmed.list, ← htrimmed.absoluteCentre]
    clear hleftCentre
    omega

/-! ### All arrangements -/

/-- An arrangement places its sections fairly exactly when what stands beside a
centred list fits around it, and then the markers of the list keep apart as well. -/
theorem arrange_fair_iff (listAlign : Align) (available : UInt32) (screens : Screens)
    (focusStart focusEnd : Int32) :
    (Fair available (separate listAlign)
        (drawn listAlign available screens focusStart focusEnd) ↔
      FitsAround available screens.cx listAlign) ∧
    (FitsAround available screens.cx listAlign →
      Fair available (separateMarkers listAlign)
        (drawn listAlign available screens focusStart focusEnd)) := by
  have hmarkers : FitsAround available screens.cx listAlign →
      Fair available (separateMarkers listAlign)
        (drawn listAlign available screens focusStart focusEnd) := by
    intro hfits
    cases listAlign with
    | default => exact formatDrawNone_fair available screens
    | left => exact formatDrawLeft_fair available screens focusStart focusEnd
    | centre => exact formatDrawCentre_fair hfits focusStart focusEnd
    | right => exact formatDrawRight_fair available screens focusStart focusEnd
    | absoluteCentre => exact formatDrawAbsoluteCentre_fair hfits focusStart focusEnd
  refine ⟨⟨fun hfair => ?_, fun hfits => (hmarkers hfits).of_subset (separate_subset listAlign)⟩,
    hmarkers⟩
  cases listAlign with
  | default => exact trivial
  | left => exact trivial
  | centre => exact fitsAround_centre_of_fair hfair
  | right => exact trivial
  | absoluteCentre => exact fitsAround_absoluteCentre_of_fair hfair

/-- Twelve columns for a centre section of ten and a list of two. -/
def wideCentre : Screens where
  size := 50
  cx := fun part => if part = .centre then 10 else if part = .list then 2 else 0
  fits := by decide

/-- The list starts at column 5, and the ten columns before it at column -5. -/
theorem wideCentre_wraps : ¬ ∀ (listAlign : Align) (available : UInt32) (screens : Screens)
    (focusStart focusEnd : Int32), Fair available (separate listAlign)
      (drawn listAlign available screens focusStart focusEnd) := by
  intro hall
  have hexact := (hall .centre 12 wideCentre (-1) (-1)).exact
  exact absurd hexact (by decide)

end Ztmux.FormatDraw
