import Mathlib.Data.List.Forall2
import ScriptModules.Notification
import ScriptModules.Proofs.Json.Documents
import ScriptModules.Proofs.Text.WellFormed

/-!
# Notifications as lines

A message is one line, because the quotes around a path leave no line end as it is. A sink takes
the bytes in as many bites as it likes and refuses the rest once it is full. From then on it takes
nothing, so that what it has taken is a front of all the lines, wherever a message was cut.
-/

namespace ScriptModules

namespace Json

/-- Members with strings for their values. -/
def stringMembers (ms : List (String × String)) : Members := ms.map fun m => (m.1, .string m.2)

/-- A string behind its key is read as a member. -/
theorem reads_insertMember (depth : Nat) (ms : Members) (k s : String) :
    Reads (insertMember (readValue .keep (depth + 1)) ms k) (':' :: (Value.string s).chars)
      (ms.insert k (.string s)) := by
  intro p more hp _
  have hvalue : p.next.rest = '\x22' :: (s.toList.flatMap escapeChar ++ '\x22' :: more) := by
    rw [Place.rest_next hp]
    simp [Value.chars, quote]
  have hskip := Place.skipBlanks_of_not_blank hvalue (by simp [Place.IsBlank])
  obtain ⟨q, hq, hrest⟩ := readText_quote (Place.rest_next hvalue)
  refine ⟨q, ?_, hrest⟩
  simp [insertMember, readColon_written hp, readValue, hskip, hvalue, hq, Except.map, bind,
    Except.bind, pure, Except.pure]

/-- Members with strings for their values are read and inserted one after the other. -/
theorem gathers_stringMembers (depth : Nat) (ms : List (String × String)) (s : Members) :
    Gathers (insertMember (readValue .keep (depth + 1))) (stringMembers ms) s
      (insertEach s (stringMembers ms)) := by
  induction ms generalizing s with
  | nil => exact .nil s
  | cons m ms ih => exact .cons (reads_insertMember depth s m.1 m.2) (ih _)

/-- An object of strings reads back. -/
theorem parse_compact_stringMembers (ms : List (String × String)) :
    parse (Value.object (stringMembers ms)).compact =
      .ok (.object (Members.ofList (stringMembers ms))) := by
  have hchars : (Place.ofText (Value.object (stringMembers ms)).compact).rest =
      (Value.object (stringMembers ms)).chars := String.toList_ofList
  obtain ⟨hskip, ⟨rest, hrest⟩, q, hq, hend⟩ :=
    readMembers_document (gathers_stringMembers 126 ms []) hchars
  rw [parse, depthLimit, readValue_of_brace (hskip.symm ▸ hrest) (Nat.succ_ne_zero _), hskip, hq]
  simp only [Except.map, bind, Except.bind, hend, pure, Except.pure]
  rfl

/-- No character is written as a line end. -/
theorem newline_not_mem_escapeChar (c : Char) : '\n' ∉ escapeChar c := by
  have hdigit {n : Nat} (h : n < 16) : '\n' ≠ hexDigit n := fun heq => by
    have hvalue := hexValue?_hexDigit h
    rw [← heq] at hvalue
    cases hvalue
  rcases escapeChar_cases c with ⟨e, he, hread⟩ | ⟨he, hcontrol⟩ | ⟨he, -, -, hplain⟩
  · have hne : '\n' ≠ e := by
      rintro rfl
      cases hread ⟨['\n'], 1, 0⟩ [] rfl
    simp [he, hne]
  · simp [he, hdigit (show c.toNat / 16 < 16 by omega), hdigit (Nat.mod_lt c.toNat (by omega))]
  · have hne : '\n' ≠ c := by
      rintro rfl
      exact hplain (by decide)
    simp [he, hne]

/-- No line end is written in a string. -/
theorem newline_not_mem_quote (s : String) : '\n' ∉ quote s := by
  simp [quote, newline_not_mem_escapeChar]

/-- No line end is written in an object of strings. -/
theorem newline_not_mem_compact (ms : List (String × String)) :
    '\n' ∉ (Value.object (stringMembers ms)).compact.toList := by
  have hmember (m : String × String) : '\n' ∉ quote m.1 ++ ':' :: (Value.string m.2).chars := by
    simp [Value.chars, newline_not_mem_quote]
  have hmembers : '\n' ∉ Value.memberChars (stringMembers ms) := by
    cases ms with
    | nil => simp [stringMembers, Value.memberChars]
    | cons m ms =>
      rw [stringMembers, List.map_cons, Value.memberChars_cons, List.flatMap_map]
      simp [newline_not_mem_quote, Value.chars]
  simpa [Value.compact, Value.chars] using hmembers

end Json

namespace Notification

/-- The byte of a line end. -/
def newline : UInt8 := 10

/-- The bytes of a message without the line end. -/
def body (n : Notification) : List UInt8 := Text.utf8 n.toJson.compact.toList

/-- The lines of messages. -/
def stream (ns : List Notification) : List UInt8 := ns.flatMap fun n => n.body ++ [newline]

/-- A text of bytes that is the JSON object of a dependency. -/
def Tells (path : String) (bytes : List UInt8) : Prop :=
  ∃ text, Text.decode? bytes = some text ∧
    Json.parse text = .ok (.object [("type", .string "dependency"), ("path", .string path)])

variable (n : Notification) (path : String)

/-- A line is its text and one line end. -/
theorem utf8_line : Text.utf8 n.line.toList = n.body ++ [newline] := by
  rw [line, String.toList_append, Text.utf8_eq_flatMap, List.flatMap_append, body,
    Text.utf8_eq_flatMap]
  rfl

/-- The object of a message has strings for its members. -/
theorem toJson_eq : (dependency path).toJson =
    .object (Json.stringMembers [("type", "dependency"), ("path", path)]) := rfl

/-- A message is one line. -/
theorem newline_not_mem_body : newline ∉ n.body := by
  obtain ⟨path⟩ := n
  intro hmem
  have hchar := Text.ofNat_mem_of_mem_utf8 hmem (by decide)
  rw [toJson_eq] at hchar
  exact Json.newline_not_mem_compact _ hchar

/-- What is written of a dependency tells of it. -/
theorem tells_body : Tells path (dependency path).body := by
  refine ⟨(dependency path).toJson.compact, Text.decode?_eq_some_iff.mpr rfl, ?_⟩
  rw [toJson_eq, Json.parse_compact_stringMembers]
  simp [Json.stringMembers, Json.Members.ofList, Json.Members.insert]

/-- The lines of messages are taken apart at the line ends, with nothing behind the last one. -/
theorem splitOn_stream (ns : List Notification) :
    (stream ns).splitOn newline = ns.map body ++ [[]] := by
  induction ns with
  | nil => rfl
  | cons n ns ih =>
    have hcons : stream (n :: ns) = n.body ++ newline :: stream ns := by simp [stream]
    rw [hcons, List.splitOn_append_cons_self_of_not_mem (newline_not_mem_body n), ih]
    rfl

end Notification

namespace ByteSink

open Notification (newline body stream)

variable {s t : ByteSink} {bytes : List UInt8}

/-- There is room for a number of bytes. -/
def Fits (s : ByteSink) (count : Nat) : Prop :=
  ∀ limit ∈ s.limit, s.written.length + count ≤ limit

/-- Writing bytes bite by bite, and whether all of them were taken. A sink with room takes some
bytes each time it is asked. Writing ends when it takes none. -/
inductive WritesAll : List UInt8 → ByteSink → Bool → ByteSink → Prop
  | done (s : ByteSink) : WritesAll [] s true s
  | refused {s : ByteSink} {bytes : List UInt8} (hfull : ¬ s.Fits 1) (hne : bytes ≠ []) :
    WritesAll bytes s false s
  | bite {s t : ByteSink} {front bytes : List UInt8} {all : Bool} (hne : front ≠ [])
    (hfits : s.Fits front.length)
    (h : WritesAll bytes { s with written := s.written ++ front } all t) :
    WritesAll (front ++ bytes) s all t

/-- Sending a message: the text, and then the line end if all of the text was taken. That a message
was cut is not told. -/
inductive Sends (n : Notification) : ByteSink → ByteSink → Prop
  | cut {s t : ByteSink} (h : WritesAll n.body s false t) : Sends n s t
  | ended {s t u : ByteSink} {all : Bool} (h : WritesAll n.body s true t)
    (hend : WritesAll [newline] t all u) : Sends n s u

/-- Sending messages one after the other. -/
inductive SendsAll : List Notification → ByteSink → ByteSink → Prop
  | nil (s : ByteSink) : SendsAll [] s s
  | cons {n : Notification} {ns : List Notification} {s t u : ByteSink} (h : Sends n s t)
    (hrest : SendsAll ns t u) : SendsAll (n :: ns) s u

@[simp] theorem write_nil (s : ByteSink) : s.write [] = s := by
  obtain ⟨limit, written⟩ := s
  cases limit <;> simp [write]

/-- What is written in two parts is written in one. -/
theorem write_write (front bytes : List UInt8) (s : ByteSink) :
    (s.write front).write bytes = s.write (front ++ bytes) := by
  obtain ⟨limit, written⟩ := s
  cases limit with
  | none => simp [write]
  | some limit =>
    simp only [write, List.append_assoc, List.take_append, List.length_append, List.length_take]
    congr 4
    omega

/-- What fits is written as a whole. -/
theorem write_of_fits (h : s.Fits bytes.length) :
    s.write bytes = { s with written := s.written ++ bytes } := by
  obtain ⟨limit, written⟩ := s
  cases limit with
  | none => rfl
  | some limit =>
    have hroom : written.length + bytes.length ≤ limit := h limit rfl
    simp only [write]
    rw [List.take_of_length_le (by omega)]

/-- A full sink stays as it is. -/
theorem write_of_not_fits (h : ¬ s.Fits 1) (bytes : List UInt8) : s.write bytes = s := by
  obtain ⟨limit, written⟩ := s
  cases limit with
  | none => exact absurd nofun h
  | some limit =>
    have hfull : limit ≤ written.length := by
      refine Nat.le_of_not_lt fun hroom => h fun limit' hlimit => ?_
      obtain rfl := Option.some.inj hlimit
      exact hroom
    simp [write, Nat.sub_eq_zero_of_le hfull]

namespace WritesAll

variable {all : Bool}

/-- However the bytes are taken, those are written that fit. -/
theorem eq_write (h : WritesAll bytes s all t) : t = s.write bytes := by
  induction h with
  | done s => exact (write_nil s).symm
  | refused hfull => exact (write_of_not_fits hfull _).symm
  | bite _ hfits _ ih => rw [ih, ← write_of_fits hfits, write_write]

/-- A sink that did not take all the bytes is full. -/
theorem not_fits (h : WritesAll bytes s all t) (hall : all = false) : ¬ t.Fits 1 := by
  induction h with
  | done => cases hall
  | refused hfull => exact hfull
  | bite _ _ _ ih => exact ih hall

end WritesAll

/-- Whatever bites are taken, writing ends with what the sink keeps. -/
theorem exists_writesAll (bytes : List UInt8) (s : ByteSink) :
    ∃ all, WritesAll bytes s all (s.write bytes) := by
  induction bytes generalizing s with
  | nil =>
    rw [write_nil]
    exact ⟨true, .done s⟩
  -- One byte at a time, until the sink is full.
  | cons b bytes ih =>
    by_cases hfits : s.Fits 1
    · obtain ⟨all, h⟩ := ih (s.write [b])
      rw [write_write, write_of_fits hfits] at h
      exact ⟨all, .bite (List.cons_ne_nil b []) hfits h⟩
    · rw [write_of_not_fits hfits]
      exact ⟨false, .refused hfits (List.cons_ne_nil b bytes)⟩

/-- A message is sent as the bytes of its line that fit. -/
theorem sends_iff {n : Notification} : Sends n s t ↔ t = s.report n := by
  have hreport : s.report n = (s.write n.body).write [newline] := by
    rw [report, Notification.utf8_line, write_write]
  rw [hreport]
  constructor
  · intro h
    cases h with
    -- The line end is not tried for, but there would be no room for it.
    | cut h => rw [← h.eq_write, write_of_not_fits (h.not_fits rfl)]
    | ended h hend => rw [hend.eq_write, h.eq_write]
  · rintro rfl
    obtain ⟨all, h⟩ := exists_writesAll n.body s
    cases all with
    | false =>
      rw [write_of_not_fits (h.not_fits rfl)]
      exact .cut h
    | true =>
      obtain ⟨all, hend⟩ := exists_writesAll [newline] (s.write n.body)
      exact .ended h hend

/-- There is one way to send some messages to a sink. -/
theorem sendsAll_iff {ns : List Notification} : SendsAll ns s t ↔ t = s.reportAll ns := by
  constructor
  · intro h
    induction h with
    | nil => rfl
    | cons h _ ih => rw [ih, sends_iff.mp h]; rfl
  · rintro rfl
    induction ns generalizing s with
    | nil => exact .nil s
    | cons n ns ih => exact .cons (sends_iff.mpr rfl) ih

/-- To send messages is to write their lines. -/
theorem reportAll_eq_write (ns : List Notification) (s : ByteSink) :
    s.reportAll ns = s.write (stream ns) := by
  induction ns generalizing s with
  | nil => exact (write_nil s).symm
  | cons n ns ih =>
    have hcons : s.reportAll (n :: ns) = (s.report n).reportAll ns := rfl
    rw [hcons, ih, report, Notification.utf8_line, write_write]
    rfl

/-- What a sink takes of messages is a front of their lines, as long as its limit admits. Without a
limit, taking it apart at the line ends gives the JSON object of each path, in order. It makes no
difference in how many bites the sink takes the bytes, and a message that was cut is followed by
nothing. -/
theorem reportAll_frames (paths : List String) :
    (∀ limit, (reportAll (paths.map .dependency) ⟨some limit, []⟩).written =
        (stream (paths.map .dependency)).take
          (min limit (stream (paths.map .dependency)).length)) ∧
      (reportAll (paths.map .dependency) {}).written = stream (paths.map .dependency) ∧
      (∃ lines, (reportAll (paths.map .dependency) {}).written.splitOn newline = lines ++ [[]] ∧
        List.Forall₂ Notification.Tells paths lines) ∧
      ∀ s t, SendsAll (paths.map .dependency) s t ↔ t = s.reportAll (paths.map .dependency) := by
  have hall : (reportAll (paths.map .dependency) {}).written = stream (paths.map .dependency) := by
    rw [reportAll_eq_write]
    rfl
  refine ⟨fun limit => ?_, hall, ⟨(paths.map .dependency).map body, ?_, ?_⟩, fun s t =>
    sendsAll_iff⟩
  · rw [reportAll_eq_write, ← List.take_eq_take_min]
    rfl
  · rw [hall, Notification.splitOn_stream]
  · rw [List.forall₂_map_right_iff, List.forall₂_map_right_iff, List.forall₂_same]
    exact fun path _ => Notification.tells_body path

end ByteSink

end ScriptModules
