import SlotTree.Proofs.Text.Entries

/-! # Drawing into a sink that runs full

A sink holds the same whether a text reaches it in one go or in parts, so it is left with as much of
a drawing as there was room for, wherever in the drawing the room ends. A watched sink also notes
what is tried on it: the first try that fails is the last one.
-/

namespace SlotTree.Text

universe u w

/-! ## Room -/

/-- What a sink holds after a text was put into its room, and the room that is left. -/
def Sink.filled (start : String) (room : Nat) (text : String) : Sink :=
  ⟨start ++ String.ofList (text.toList.take (min room text.length)), some (room - text.length)⟩

theorem Sink.put_of_le {start text : String} {room : Nat} (hroom : text.length ≤ room) :
    Sink.put text ⟨start, some room⟩ = .ok (filled start room text) := by
  have hall : text.toList.take text.length = text.toList :=
    List.take_of_length_le (Nat.le_of_eq String.length_toList)
  simp only [put, filled, if_pos hroom, Nat.min_eq_right hroom, hall, String.ofList_toList]

theorem Sink.put_of_lt {start text : String} {room : Nat} (hroom : room < text.length) :
    Sink.put text ⟨start, some room⟩ = .error (filled start room text) := by
  have hle : room ≤ text.length := Nat.le_of_lt hroom
  simp only [put, filled, if_neg (Nat.not_le.2 hroom), Nat.min_eq_left hle,
    Nat.sub_eq_zero_of_le hle]

/-! ## Tries -/

/-- A way to break up pieces into the parts that are written one by one. It may look at the place
of a piece among all pieces. -/
structure Division where
  parts : Nat → String → List String
  join_parts : ∀ place piece, String.join (parts place piece) = piece

/-- Pieces may be written as they are. -/
instance : Inhabited Division := ⟨fun _ piece => [piece], fun _ piece => by simp⟩

/-- The parts of pieces from a place on. -/
def Division.split (d : Division) : Nat → List String → List String
  | _, [] => []
  | place, piece :: rest => d.parts place piece ++ d.split (place + 1) rest

theorem Division.join_split (d : Division) (place : Nat) (pieces : List String) :
    String.join (d.split place pieces) = String.join pieces := by
  induction pieces generalizing place with
  | nil => rfl
  | cons piece rest ih => rw [split, String.join_append, d.join_parts, ih, String.join_cons]

/-- A sink with the number of pieces that went in, and the parts that were tried on it, first to
last, and whether each was taken. -/
structure Watched (σ : Type w) where
  place : Nat
  tries : List (String × Bool)
  sink : σ

section Tries

variable {σ : Type w} (put : String → σ → Except σ σ)

/-- Puts a part and notes the try, whatever comes of it. -/
def watch (part : String) (w : Watched σ) : Except (Watched σ) (Watched σ) :=
  match put part w.sink with
  | .ok s => .ok ⟨w.place, w.tries ++ [(part, true)], s⟩
  | .error s => .error ⟨w.place, w.tries ++ [(part, false)], s⟩

/-- Puts a piece part by part, up to the first part that is refused. -/
def Division.putParts (d : Division) (piece : String) (w : Watched σ) :
    Except (Watched σ) (Watched σ) :=
  (putAll (watch put) (d.parts w.place piece) w).map fun w => { w with place := w.place + 1 }

variable {put} {part : String} {front rest parts : List String} {s after : σ} {w : Watched σ}

theorem putAll_append_of_ok (hfront : putAll put front s = .ok after) :
    putAll put (front ++ rest) s = putAll put rest after := by
  rw [putAll, List.foldlM_append, ← putAll, hfront]
  rfl

theorem putAll_append_of_error (hfront : putAll put front s = .error after) :
    putAll put (front ++ rest) s = .error after := by
  rw [putAll, List.foldlM_append, ← putAll, hfront]
  rfl

theorem putAll_cons_of_ok (hpart : put part s = .ok after) :
    putAll put (part :: rest) s = putAll put rest after := by
  rw [putAll, List.foldlM_cons, hpart]
  rfl

theorem putAll_cons_of_error (hpart : put part s = .error after) :
    putAll put (part :: rest) s = .error after := by
  rw [putAll, List.foldlM_cons, hpart]
  rfl

theorem watch_of_ok (hpart : put part w.sink = .ok after) :
    watch put part w = .ok ⟨w.place, w.tries ++ [(part, true)], after⟩ := by
  simp only [watch, hpart]

theorem watch_of_error (hpart : put part w.sink = .error after) :
    watch put part w = .error ⟨w.place, w.tries ++ [(part, false)], after⟩ := by
  simp only [watch, hpart]

theorem putAll_watch_of_ok (hput : putAll put parts w.sink = .ok s) :
    putAll (watch put) parts w = .ok ⟨w.place, w.tries ++ parts.map (·, true), s⟩ := by
  induction parts generalizing w with
  | nil =>
      obtain rfl : w.sink = s := Except.ok.inj hput
      rw [List.map_nil, List.append_nil]
      rfl
  | cons part rest ih =>
      cases hpart : put part w.sink with
      | error after => rw [putAll_cons_of_error hpart] at hput; nomatch hput
      | ok after =>
          rw [putAll_cons_of_ok hpart] at hput
          rw [putAll_cons_of_ok (watch_of_ok hpart), ih hput, List.append_assoc, List.map_cons,
            List.singleton_append]

/-- The parts before the first refused one are taken, and no part after it is tried. -/
theorem putAll_watch_of_error (hput : putAll put parts w.sink = .error s) :
    ∃ taken refused later, parts = taken ++ refused :: later ∧
      putAll (watch put) parts w =
        .error ⟨w.place, w.tries ++ taken.map (·, true) ++ [(refused, false)], s⟩ := by
  induction parts generalizing w with
  | nil => nomatch hput
  | cons part rest ih =>
      cases hpart : put part w.sink with
      | error after =>
          obtain rfl : after = s := Except.error.inj ((putAll_cons_of_error hpart).symm.trans hput)
          refine ⟨[], part, rest, rfl, ?_⟩
          rw [putAll_cons_of_error (watch_of_error hpart), List.map_nil, List.append_nil]
      | ok after =>
          rw [putAll_cons_of_ok hpart] at hput
          obtain ⟨taken, refused, later, rfl, hwatch⟩ :=
            ih (w := ⟨w.place, w.tries ++ [(part, true)], after⟩) hput
          refine ⟨part :: taken, refused, later, rfl, ?_⟩
          rw [putAll_cons_of_ok (watch_of_ok hpart), hwatch, List.append_assoc w.tries,
            List.map_cons, List.singleton_append]

/-! ### Pieces in parts -/

variable {d : Division} {piece : String} {pieces : List String}

theorem putParts_of_ok (hput : putAll put (d.parts w.place piece) w.sink = .ok s) :
    d.putParts put piece w =
      .ok ⟨w.place + 1, w.tries ++ (d.parts w.place piece).map (·, true), s⟩ := by
  rw [Division.putParts, putAll_watch_of_ok hput, Except.map]

theorem putAll_putParts_of_ok (hput : putAll put (d.split w.place pieces) w.sink = .ok s) :
    putAll (d.putParts put) pieces w =
      .ok ⟨w.place + pieces.length, w.tries ++ (d.split w.place pieces).map (·, true), s⟩ := by
  induction pieces generalizing w with
  | nil =>
      obtain rfl : w.sink = s := Except.ok.inj hput
      rw [Division.split, List.map_nil, List.append_nil]
      rfl
  | cons piece rest ih =>
      rw [Division.split] at hput ⊢
      cases hpiece : putAll put (d.parts w.place piece) w.sink with
      | error after => rw [putAll_append_of_error hpiece] at hput; nomatch hput
      | ok after =>
          rw [putAll_append_of_ok hpiece] at hput
          rw [putAll_cons_of_ok (putParts_of_ok hpiece), ih hput, List.map_append,
            List.append_assoc, List.length_cons, Nat.add_assoc, Nat.add_comm 1]

/-- The first part that is refused ends all, in whatever piece it is. -/
theorem putAll_putParts_of_error (hput : putAll put (d.split w.place pieces) w.sink = .error s) :
    ∃ place taken refused later, d.split w.place pieces = taken ++ refused :: later ∧
      putAll (d.putParts put) pieces w =
        .error ⟨place, w.tries ++ taken.map (·, true) ++ [(refused, false)], s⟩ := by
  induction pieces generalizing w with
  | nil => nomatch hput
  | cons piece rest ih =>
      rw [Division.split] at hput ⊢
      cases hpiece : putAll put (d.parts w.place piece) w.sink with
      | error after =>
          -- Refused within this piece: the parts of later pieces come after the refused one.
          rw [putAll_append_of_error hpiece] at hput
          obtain rfl : after = s := Except.error.inj hput
          obtain ⟨taken, refused, later, hparts, hwatch⟩ := putAll_watch_of_error hpiece
          have hrefused : d.putParts put piece w =
              .error ⟨w.place, w.tries ++ taken.map (·, true) ++ [(refused, false)], after⟩ := by
            rw [Division.putParts, hwatch, Except.map]
          refine ⟨w.place, taken, refused, later ++ d.split (w.place + 1) rest, ?_,
            putAll_cons_of_error hrefused⟩
          rw [hparts, List.append_assoc, List.cons_append]
      | ok after =>
          rw [putAll_append_of_ok hpiece] at hput
          obtain ⟨place, taken, refused, later, hparts, hwatch⟩ :=
            ih (w := ⟨w.place + 1, w.tries ++ (d.parts w.place piece).map (·, true), after⟩) hput
          refine ⟨place, d.parts w.place piece ++ taken, refused, later, ?_, ?_⟩
          · rw [hparts, List.append_assoc]
          · rw [putAll_cons_of_ok (putParts_of_ok hpiece), hwatch, List.map_append,
              List.append_assoc w.tries]

end Tries

/-! ## Drawings -/

variable {α : Type u} (label : α → String)

theorem draw_sink (t : Option (Tree α)) (s : Sink) :
    draw label Sink.put t s = s.put (drawing label t) := by
  rw [draw_eq_putAll, putAll_sink, drawing_eq_join]

/-- A drawing that is written in parts puts the same text into a sink. -/
theorem putAll_split_sink (t : Option (Tree α)) (d : Division) (s : Sink) :
    putAll Sink.put (d.split 0 (pieces label t)) s = s.put (drawing label t) := by
  rw [putAll_sink, d.join_split, drawing_eq_join]

/-- A sink is left with the start of a drawing, as far as its room goes, and takes all of it if and
only if there is room for all. However the pieces of the drawing are broken up, the parts are tried
one by one up to the first refused one, and no part after that is tried. The drawing is made up of
the entries of the tree. -/
theorem writeDrawing_limited (t : Option (Tree α)) (start : String) (room : Nat) (d : Division) :
    let text := drawing label t
    let left : Sink :=
      ⟨start ++ String.ofList (text.toList.take (min room text.length)), some (room - text.length)⟩
    let parts := d.split 0 (pieces label t)
    let watched := draw label (d.putParts Sink.put) t ⟨0, [], ⟨start, some room⟩⟩
    text = t.elim "(null)\n" (fun t => String.join (t.paths.map (entry label t))) ∧
    String.join parts = text ∧
    writeDrawing label t ⟨start, some room⟩ = (decide (text.length ≤ room), left) ∧
    (text.length ≤ room →
      watched = .ok ⟨(pieces label t).length, parts.map (·, true), left⟩) ∧
    (room < text.length → ∃ place taken refused later, parts = taken ++ refused :: later ∧
      watched = .error ⟨place, taken.map (·, true) ++ [(refused, false)], left⟩) := by
  intro text left parts watched
  have hwhole := putAll_split_sink label t d ⟨start, some room⟩
  rw [writeDrawing, draw_sink]
  refine ⟨?_, ?_, ?_, fun hroom => ?_, fun hroom => ?_⟩
  · cases t with
    | none => exact drawing_eq_join label none
    | some t => exact drawing_eq_entries label t
  · rw [d.join_split, ← drawing_eq_join]
  · rcases Nat.lt_or_ge room text.length with hroom | hroom
    · rw [Sink.put_of_lt hroom, decide_eq_false (Nat.not_le.2 hroom)]
      rfl
    · rw [Sink.put_of_le hroom, decide_eq_true hroom]
      rfl
  · rw [Sink.put_of_le hroom] at hwhole
    have hput := putAll_putParts_of_ok (w := ⟨0, [], _⟩) hwhole
    rw [List.nil_append, Nat.zero_add] at hput
    exact (draw_eq_putAll label _ t _).trans hput
  · rw [Sink.put_of_lt hroom] at hwhole
    obtain ⟨place, taken, refused, later, hparts, hput⟩ :=
      putAll_putParts_of_error (w := ⟨0, [], _⟩) hwhole
    exact ⟨place, taken, refused, later, hparts,
      (draw_eq_putAll label _ t _).trans hput⟩

example : draw id ((default : Division).putParts Sink.put) (some (.node "1" [none]))
    ⟨0, [], ⟨">", some 4⟩⟩ =
      .error ⟨2, [("1", true), ("\n", true), ("└── ", false)], ⟨">1\n└─", some 0⟩⟩ := by
  cbv

end SlotTree.Text
