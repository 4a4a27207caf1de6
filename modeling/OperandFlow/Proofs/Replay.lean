import OperandFlow.Proofs.Records
import OperandFlow.Proofs.Runs
import OperandFlow.Proofs.Text.Bytes

/-! Replaying a trace is feeding the records of its lines to the hooks one by one, and linking what
still waits for its result at the end. -/
namespace OperandFlow

namespace Json

/-- A carriage return behind a text is a blank. -/
theorem tokens?_append_return (cs : List Char) : tokens? (cs ++ ['\r']) = tokens? cs := by
  have hstep : ∀ s : Scanner, (s.step '\r').bind Scanner.finish = s.finish := by
    intro ⟨tokens, mode⟩
    cases mode with
    | between => rfl
    | lexeme seen =>
      change ((Scanner.closeLexeme tokens seen).bind fun t => Scanner.between t '\r').bind _ = _
      cases h : Scanner.closeLexeme tokens seen <;> simp [Scanner.finish, h]; rfl
    | string seen => rfl
    | escape seen => rfl
    | hex seen value digits => rfl
  rw [tokens?, tokens?, List.foldlM_append]
  simp only [List.foldlM_cons, List.foldlM_nil, bind_pure]
  cases cs.foldlM Scanner.step ⟨[], .between⟩ with
  | none => rfl
  | some s => exact hstep s

theorem read?_append_return (text : String) : read? (text ++ "\r") = read? text := by
  have hlist : (text ++ "\r").toList = text.toList ++ ['\r'] := by simp
  rw [read?, hlist, tokens?_append_return, ← read?]

end Json

namespace HookRecord

theorem render_isVisible (r : HookRecord) : Json.IsVisible r.render.toList := by
  rw [render, Json.render, String.toList_ofList]
  exact r.plain_toJson.isVisible

theorem render_not_blank (r : HookRecord) : Text.allBlank r.render.toList = false := by
  rw [render, Json.render, String.toList_ofList]
  cases r <;> rfl

end HookRecord

namespace Analysis
open Text

/-! ### Lines -/

theorem linesOf_append {line : List UInt8} (h : 10 ∉ line) (seen rest : List UInt8) :
    linesOf seen (line ++ rest) = linesOf (line.reverse ++ seen) rest := by
  induction line generalizing seen with
  | nil => rfl
  | cons b line ih =>
    have hb : b ≠ 10 := fun heq => h (heq ▸ List.mem_cons_self)
    have hline : 10 ∉ line := fun hmem => h (List.mem_cons_of_mem b hmem)
    rw [List.cons_append, linesOf, ih hline, List.reverse_cons, List.append_assoc,
      List.singleton_append]
    exact hb

theorem linesOf_feed {seen : List UInt8} (h : seen.head? ≠ some 13) (rest : List UInt8) :
    linesOf seen (10 :: rest) = seen.reverse :: linesOf [] rest := by
  rw [linesOf]
  rintro before rfl
  exact h rfl

theorem not_mem_bytes {text : String} (h : '\n' ∉ text.toList) : 10 ∉ bytes text :=
  fun hmem => h (mem_bytes (by decide) hmem)

/-- A text that does not end in a carriage return has no byte of one at its end. -/
theorem getLast?_bytes {text : String} (h : '\r' ∉ text.toList.getLast?) :
    (bytes text).getLast? ≠ some 13 := by
  intro hlast
  rw [bytes_eq_flatMap] at hlast
  obtain hnil | ⟨front, c, hconcat⟩ := List.eq_nil_or_concat text.toList
  · rw [hnil] at hlast
    cases hlast
  · rw [List.concat_eq_append] at hconcat
    rw [hconcat, List.flatMap_append, List.flatMap_singleton,
      List.getLast?_append_of_ne_nil _ String.utf8EncodeChar_ne_nil] at hlast
    have hc := toNat_of_mem_utf8EncodeChar (by decide) (List.mem_of_getLast? hlast)
    have hreturn : c = '\r' := by
      rw [← Char.ofNat_toNat c, hc]
      rfl
    exact h (by rw [hconcat, List.getLast?_concat, hreturn]; rfl)

/-- The first line is what stands before the line feed, up to a carriage return. -/
theorem linesOf_text {text : String} (h : '\n' ∉ text.toList) (rest : List UInt8) :
    ∃ line : String, linesOf [] (bytes text ++ 10 :: rest) = bytes line :: linesOf [] rest ∧
      (text = line ∨ text = line ++ "\r") := by
  rw [linesOf_append (not_mem_bytes h), List.append_nil]
  by_cases hreturn : '\r' ∈ text.toList.getLast?
  · obtain ⟨front, hfront⟩ := List.getLast?_eq_some_iff.mp hreturn
    have htext : text = String.ofList front ++ "\r" := by
      rw [← String.toList_inj, hfront]
      simp
    have hbytes : (bytes text).reverse = 13 :: (bytes (String.ofList front)).reverse := by
      rw [htext, bytes_append, List.reverse_append]
      rfl
    refine ⟨String.ofList front, ?_, .inr htext⟩
    rw [hbytes, linesOf, List.reverse_reverse]
  · refine ⟨text, ?_, .inl rfl⟩
    rw [linesOf_feed, List.reverse_reverse]
    rw [List.head?_reverse]
    exact getLast?_bytes hreturn

theorem linesOf_last {text : String} (h : '\n' ∉ text.toList) :
    linesOf [] (bytes text) = if text = "" then [] else [bytes text] := by
  have hall := linesOf_append (not_mem_bytes h) [] []
  rw [List.append_nil, List.append_nil] at hall
  rw [hall, linesOf, List.isEmpty_reverse, List.reverse_reverse]
  by_cases hempty : text = ""
  · rw [if_pos hempty, hempty]
    rfl
  · have hbytes : bytes text ≠ [] := by
      intro hnil
      have htext := fromUTF8?_bytes text
      rw [hnil] at htext
      exact hempty (Option.some.inj (htext.symm.trans (fromUTF8?_bytes "")))
    rw [if_neg hempty, if_neg (by simpa using hbytes)]

/-! ### Replaying line by line -/

/-- Applies the records of the lines from number `line` on, as far as they can be read. -/
def replayTexts (line records : Nat) (s : Analysis) :
    List String → Except ReplayError Nat × Analysis
  | [] => (.ok records, s)
  | text :: rest =>
    if allBlank text.toList then replayTexts (line + 1) records s rest
    else
      match HookRecord.read? text with
      | none => (.error (.malformed line), s)
      | some record => replayTexts (line + 1) (records + 1) (s.apply record) rest

/-- The two replays agree on a line if they do behind it. -/
theorem replayLines_cons_bytes {text line : String} (h : text = line ∨ text = line ++ "\r")
    {rest : List String} {lines : List (List UInt8)}
    (ih : ∀ number records (s : Analysis),
      s.replayLines number records lines = s.replayTexts number records rest)
    (number records : Nat) (s : Analysis) :
    s.replayLines number records (bytes line :: lines) =
      s.replayTexts number records (text :: rest) := by
  have hblank : allBlank text.toList = allBlank line.toList := by
    obtain rfl | rfl := h
    · rfl
    · simp [allBlank, isBlank]
  have hread : HookRecord.read? text = HookRecord.read? line := by
    obtain rfl | rfl := h
    · rfl
    · rw [HookRecord.read?, Json.read?_append_return, ← HookRecord.read?]
  cases hrecord : HookRecord.read? line with
  | none => simp only [replayLines, replayTexts, fromUTF8?_bytes, ih, hblank, hread, hrecord]
  | some record =>
    simp only [replayLines, replayTexts, fromUTF8?_bytes, ih, hblank, hread, hrecord]

/-- Line feeds between texts part them into lines. -/
theorem replayLines_linesOf {lines : List String} (h : ∀ t ∈ lines, '\n' ∉ t.toList)
    (number records : Nat) (s : Analysis) :
    s.replayLines number records (linesOf [] (bytes ("\n".intercalate lines))) =
      s.replayTexts number records lines := by
  induction lines generalizing number records s with
  | nil => rfl
  | cons text rest ih =>
    have htext := h text List.mem_cons_self
    cases rest with
    | nil =>
      rw [String.intercalate_singleton, linesOf_last htext]
      split_ifs with hempty
      · rw [hempty]
        rfl
      · exact replayLines_cons_bytes (.inl rfl) (fun _ _ _ => rfl) number records s
    | cons next rest =>
      have hfeed : bytes "\n" = [10] := rfl
      rw [String.intercalate_cons_cons, bytes_append, bytes_append, hfeed, List.append_assoc,
        List.singleton_append]
      obtain ⟨line, hline, hends⟩ := linesOf_text htext _
      rw [hline]
      exact replayLines_cons_bytes hends (ih fun t ht => h t (List.mem_cons_of_mem text ht))
        number records s

/-- The lines that hold more than blanks. -/
def filled (lines : List String) : List String :=
  lines.filter fun text => !allBlank text.toList

/-- Lines that hold records, and blank ones between them, are passed over one by one. -/
theorem replayTexts_append {front : List String} {rs : List HookRecord}
    (h : (filled front).mapM HookRecord.read? = some rs) (back : List String)
    (number records : Nat) (s : Analysis) :
    s.replayTexts number records (front ++ back) =
      (rs.foldl apply s).replayTexts (number + front.length) (records + rs.length) back := by
  induction front generalizing rs number records s with
  | nil =>
    cases h
    rfl
  | cons text front ih =>
    have hnumber : number + (text :: front).length = number + 1 + front.length := by
      rw [List.length_cons]
      omega
    by_cases hblank : allBlank text.toList
    · have hfilled : filled (text :: front) = filled front := by simp [filled, hblank]
      rw [List.cons_append, replayTexts, if_pos hblank, ih (hfilled ▸ h), hnumber]
    · have hfilled : filled (text :: front) = text :: filled front := by simp [filled, hblank]
      rw [hfilled, List.mapM_cons] at h
      obtain ⟨r, hr, h⟩ := Option.bind_eq_some_iff.mp h
      obtain ⟨rest, hrest, h⟩ := Option.bind_eq_some_iff.mp h
      cases h
      have hrecords : records + (r :: rest).length = records + 1 + rest.length := by
        rw [List.length_cons]
        omega
      rw [List.cons_append, replayTexts, if_neg hblank, hr, hnumber, hrecords, List.foldl_cons]
      exact ih hrest (number + 1) (records + 1) (s.apply r)

theorem mapM_read?_render (rs : List HookRecord) :
    (rs.map HookRecord.render).mapM HookRecord.read? = some rs := by
  induction rs with
  | nil => rfl
  | cons r rs ih => rw [List.map_cons, List.mapM_cons, HookRecord.read?_render, ih]; rfl

/-- The records of a trace as actions of a session. -/
def recorded : HookRecord → Action
  | .pre e => .pre e none
  | .post e => .post e none

theorem foldl_apply_eq_performAll (s : Analysis) (rs : List HookRecord) :
    rs.foldl apply s = s.performAll (rs.map recorded) := by
  have hstep : apply = fun s r => perform s (recorded r) := by
    funext s r
    cases r <;> rfl
  rw [performAll, List.foldl_map, hstep]

/-- Hooks and the flush behind them take no node away. -/
theorem size_le_flush {s : Analysis} (hs : s.graph.Consistent) (rs : List HookRecord) :
    s.graph.size ≤ ((rs.foldl apply s).flush none).graph.size := by
  have hrun : (rs.foldl apply s).flush none = s.performAll (rs.map recorded ++ [.flush none]) := by
    rw [foldl_apply_eq_performAll, performAll, performAll, List.foldl_append]
    rfl
  have hreset : Action.reset ∉ rs.map recorded ++ [.flush none] := by
    simp only [List.mem_append, List.mem_map, List.mem_singleton]
    rintro (⟨r, -, hr⟩ | h)
    · cases r <;> cases hr
    · cases h
  rw [hrun]
  exact (extends_performAll hs hreset).size_le

theorem replay_of_readable {lines : List String} (hlines : ∀ t ∈ lines, '\n' ∉ t.toList)
    {rs : List HookRecord} (hrs : (filled lines).mapM HookRecord.read? = some rs) (s : Analysis) :
    s.replay (bytes ("\n".intercalate lines)) =
      let t := (rs.foldl apply s).flush none
      let nodes := t.graph.size - s.graph.size
      (.ok ⟨rs.length, nodes⟩, t.log [.traceReplayed rs.length nodes]) := by
  have hreplay := replayTexts_append hrs [] 1 0 s
  rw [List.append_nil, Nat.zero_add, replayTexts] at hreplay
  rw [replay, replayLines_linesOf hlines, hreplay]

theorem replay_of_malformed {front back : List String} {bad : String}
    (hlines : ∀ t ∈ front ++ bad :: back, '\n' ∉ t.toList) {rs : List HookRecord}
    (hrs : (filled front).mapM HookRecord.read? = some rs)
    (hblank : allBlank bad.toList = false) (hbad : HookRecord.read? bad = none) (s : Analysis) :
    s.replay (bytes ("\n".intercalate (front ++ bad :: back))) =
      (.error (.malformed (front.length + 1)), rs.foldl apply s) := by
  have hreplay := replayTexts_append hrs (bad :: back) 1 0 s
  rw [replayTexts, hblank, if_neg Bool.false_ne_true, hbad] at hreplay
  rw [replay, replayLines_linesOf hlines, hreplay, Nat.add_comm]

/-- What is written of a record stays on its line. -/
theorem newline_not_mem_of_filled {lines : List String} {rs : List HookRecord}
    (hblank : ∀ t ∈ lines, allBlank t.toList = true → '\n' ∉ t.toList)
    (hrs : filled lines = rs.map HookRecord.render) : ∀ t ∈ lines, '\n' ∉ t.toList := by
  intro t ht
  by_cases h : allBlank t.toList = true
  · exact hblank t ht h
  · have hfilled : t ∈ filled lines := List.mem_filter.mpr ⟨ht, by simpa using h⟩
    rw [hrs] at hfilled
    obtain ⟨r, -, rfl⟩ := List.mem_map.mp hfilled
    intro hmem
    exact absurd (r.render_isVisible _ hmem) (by decide)

/-- A trace with one written record a line, and blank lines anywhere, is replayed in full: this is to
feed its records to the hooks and to link what waits then. The only thing besides is the note of
the replay. The first line that is neither blank nor a record ends a replay. Its number counts
from one, blank lines too, and the hooks have seen the records before it. -/
theorem replay_eq_hooks (host : Host) (actions : List Action) :
    let s := (start host).performAll actions
    (∀ (lines : List String) (rs : List HookRecord),
      (∀ t ∈ lines, allBlank t.toList = true → '\n' ∉ t.toList) →
      filled lines = rs.map HookRecord.render →
      let t := (rs.foldl apply s).flush none
      ∃ nodes, t.graph.size = s.graph.size + nodes ∧
        s.replay (bytes ("\n".intercalate lines)) =
          (.ok ⟨rs.length, nodes⟩, t.log [.traceReplayed rs.length nodes])) ∧
    ∀ (front : List String) (bad : String) (back : List String) (rs : List HookRecord),
      (∀ t ∈ front ++ bad :: back, '\n' ∉ t.toList) →
      (filled front).mapM HookRecord.read? = some rs →
      allBlank bad.toList = false → HookRecord.read? bad = none →
      s.replay (bytes ("\n".intercalate (front ++ bad :: back))) =
        (.error (.malformed (front.length + 1)), rs.foldl apply s) := by
  intro s
  refine ⟨?_, ?_⟩
  · intro lines rs hblank hrs t
    have hlines := newline_not_mem_of_filled hblank hrs
    have hread : (filled lines).mapM HookRecord.read? = some rs := by
      rw [hrs, mapM_read?_render]
    have hsize := size_le_flush (consistent_performAll host actions) rs
    exact ⟨_, (Nat.add_sub_of_le hsize).symm, replay_of_readable hlines hread s⟩
  · intro front bad back rs hlines hrs hblank hbad
    exact replay_of_malformed hlines hrs hblank hbad s

/-- The function has a line feed and a quote in its name. -/
def askCaller : List HookRecord :=
  [.pre ⟨"f\n\"", 0, "CALLER", 0, [], none, none⟩, .post ⟨"f\n\"", "CALLER", ⟨256, "caller"⟩⟩]

theorem replay_eq_hooks_askCaller :
    let s := start ⟨{}, .text, 0⟩
    let t := (askCaller.foldl apply s).flush none
    let lines := askCaller.flatMap fun r => ["", r.render, "\t "]
    s.replay (bytes ("\n".intercalate lines)) = (.ok ⟨2, 3⟩, t.log [.traceReplayed 2 3]) ∧
      s.replay (bytes ("\n".intercalate (lines.take 3 ++ "[]" :: lines.drop 3))) =
        (.error (.malformed 4), (askCaller.take 1).foldl apply s) := by
  intro s t lines
  have hblank : ∀ u ∈ lines, allBlank u.toList = true → '\n' ∉ u.toList := by
    simp [lines, askCaller, HookRecord.render_not_blank]
  have hfilled : filled lines = askCaller.map HookRecord.render := by decide +kernel
  have hread : (filled (lines.take 3)).mapM HookRecord.read? = some (askCaller.take 1) := by
    have htake : filled (lines.take 3) = (askCaller.take 1).map HookRecord.render := by
      decide +kernel
    rw [htake, mapM_read?_render]
  have hlines : ∀ u ∈ lines.take 3 ++ "[]" :: lines.drop 3, '\n' ∉ u.toList := by
    have hall := newline_not_mem_of_filled hblank hfilled
    simp only [List.forall_mem_append, List.forall_mem_cons]
    exact ⟨fun u hu => hall u (List.mem_of_mem_take hu), by decide,
      fun u hu => hall u (List.mem_of_mem_drop hu)⟩
  obtain ⟨hfull, hstop⟩ := replay_eq_hooks ⟨{}, .text, 0⟩ []
  obtain ⟨nodes, hsize, hreplay⟩ := hfull lines askCaller hblank hfilled
  have hnodes : t.graph.size = s.graph.size + 3 := by decide +kernel
  cases Nat.add_left_cancel (hnodes.symm.trans hsize)
  exact ⟨hreplay, hstop _ "[]" _ _ hlines hread rfl (by decide +kernel)⟩

end Analysis
end OperandFlow
