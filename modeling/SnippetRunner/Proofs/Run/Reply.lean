import SnippetRunner.Proofs.Snapshot.Exchange
import SnippetRunner.Proofs.Text.Cut
import SnippetRunner.Run.Reply

/-
  What a reply carries over. A report is what a runtime has to say; the line of an object whose
  fields carry it, in any order and among other fields, is read as that report
  (`ofLine?_of_carries`). A value that is null and one that is left out become the same reply.
-/
namespace SnippetRunner

open SnippetRunner.Json SnippetRunner.Text

/-! ## Fields -/

namespace Fields

theorem filter_eq_get? {α : Type} {fields : List (String × α)} (h : (keys fields).Nodup)
    (key : String) :
    fields.filter (·.1 = key) = ((get? fields key).map fun a => (key, a)).toList := by
  induction fields with
  | nil => rfl
  | cons entry rest ih =>
    obtain ⟨k, a⟩ := entry
    obtain ⟨hk, hrest⟩ := List.nodup_cons.mp h
    rw [get?_cons]
    by_cases hkey : k = key
    · subst hkey
      have hnone : rest.filter (·.1 = k) = [] := by
        refine List.filter_eq_nil_iff.mpr fun entry hentry hkey => hk ?_
        exact List.mem_map.mpr ⟨entry, hentry, of_decide_eq_true hkey⟩
      simp [hnone]
    · simp [hkey, ih hrest]

theorem get?_mapValues {α β : Type} (f : α → β) (fields : List (String × α)) (key : String) :
    get? (fields.map fun entry => (entry.1, f entry.2)) key = (get? fields key).map f := by
  induction fields with
  | nil => rfl
  | cons entry rest ih =>
    obtain ⟨k, a⟩ := entry
    rw [List.map_cons, get?_cons, get?_cons, ih]
    split <;> rfl

theorem get?_map {names : List String} {α : Type} (f : String → α) {name : String}
    (h : name ∈ names) : get? (names.map fun n => (n, f n)) name = some (f name) := by
  induction names with
  | nil => cases h
  | cons n names ih =>
    rw [List.map_cons, get?_cons]
    split
    · next hn => rw [hn]
    · next hn =>
      rcases List.mem_cons.mp h with rfl | h
      · exact absurd rfl hn
      · exact ih h

end Fields

namespace Reply

/-- The known fields of an object, with the drafts of their values. -/
def draftsOf (names : List String) (fields : List (String × Json)) : Known :=
  names.map fun name => (name, (Fields.get? fields name).map Json.draft)

/-- The fields as the reader names them, once all keys are known to be texts. -/
theorem mapM_draftFields (fields : List (String × Json)) :
    ((draftFields fields).mapM fun (key, value) => key.map fun key => (key, value)) =
      some (fields.map fun entry => (entry.1, entry.2.draft)) := by
  induction fields with
  | nil => rfl
  | cons entry rest ih =>
    rw [draftFields, List.mapM_cons, ih]
    rfl

theorem recordFields?_draft {fields : List (String × Json)} (h : (Fields.keys fields).Nodup)
    (names : List String) :
    recordFields? names (Json.object fields).draft = some (draftsOf names fields) := by
  have hkeys : (Fields.keys (fields.map fun entry => (entry.1, entry.2.draft))).Nodup := by
    rw [Fields.keys, List.map_map]
    exact h
  show knownFields? names (draftFields fields) = _
  rw [knownFields?, mapM_draftFields]
  simp only [Option.bind_eq_bind, Option.bind_some, Fields.filter_eq_get? hkeys,
    Fields.get?_mapValues]
  induction names with
  | nil => rfl
  | cons name names ih =>
    rw [List.mapM_cons, ih]
    cases hget : Fields.get? fields name with
    | none => simp [draftsOf, hget]
    | some j => simp [draftsOf, hget]

section Lookup

variable {α β : Type} {names : List String} {fields : List (String × Json)} {name : String}

theorem required_draftsOf (hname : name ∈ names) {j : Json} {read : Draft → Option β} {b : β}
    (hget : Fields.get? fields name = some j) (hread : read j.draft = some b) :
    required (draftsOf names fields) name read = some b := by
  rw [required, draftsOf, Fields.get?_map _ hname, hget]
  exact hread

theorem optional_draftsOf (hname : name ∈ names) {encode : α → Json} {given : Option α}
    {read : Draft → Option β} {absent : β} {f : α → β}
    (hget : Fields.get? fields name = given.map encode)
    (hread : ∀ a, given = some a → read (encode a).draft = some (f a)) :
    Reply.optional (draftsOf names fields) name absent read = some (given.elim absent f) := by
  rw [Reply.optional, draftsOf, Fields.get?_map _ hname, hget]
  cases given with
  | none => rfl
  | some a => exact hread a rfl

/-- A field that may be left out and may be null; both stand for no value. -/
theorem optional_join (hname : name ∈ names) {encode : Option α → Json}
    {given : Option (Option α)} {read : Draft → Option (Option α)}
    (hget : Fields.get? fields name = given.map encode)
    (hread : ∀ value, read (encode value).draft = some value) :
    Reply.optional (draftsOf names fields) name none read = some given.join := by
  rw [optional_draftsOf hname hget fun value _ => hread value]
  cases given <;> rfl

end Lookup

/-! ## Values -/

theorem nullable_count? (n : Option Nat) :
    nullable count? (Json.optional .nat n).draft = some n := by
  cases n <;> rfl

theorem nullable_string? (s : Option String) :
    nullable string? (Json.optional .string s).draft = some s := by
  cases s <;> rfl

theorem snapshot?_draft {levels : Nat} {s : Snapshot} (h : s.Exchangeable levels) :
    snapshot? levels s.encode.draft = some s.unsigned := by
  rw [snapshot?, value?_draft h.readable]
  exact congrArg some (Snapshot.decode_encode_of_wellFormed s h.wellFormed)

/-- The value of a reply that reports `s`: none if it is null. -/
def reportedValue : Snapshot → Option Snapshot
  | .null => none
  | s => some s.unsigned

theorem getD_reportedValue (s : Snapshot) : (reportedValue s).getD .null = s.unsigned := by
  cases s <;> rfl

theorem nullable_snapshot? {levels : Nat} {s : Snapshot} (h : s.Exchangeable levels) :
    nullable (snapshot? levels) s.encode.draft = some (reportedValue s) := by
  have hread := snapshot?_draft h
  unfold nullable
  split
  · next hnull =>
    rw [hnull] at hread
    have hs : Snapshot.null = s.unsigned := Option.some.inj hread
    cases s with
    | null => rfl
    | _ => cases hs
  · next hnull =>
    rw [hread]
    cases s with
    | null => exact absurd rfl hnull
    | _ => rfl

end Reply

/-! ## Log entries -/

namespace LogEntry

/-- The entry without the signs of negative zeros in its message. -/
def unsigned (e : LogEntry) : LogEntry := { e with message := e.message.unsigned }

/-- The message is decoded from its text, and the line fits into 64 bits. -/
structure Exchangeable (levels : Nat) (e : LogEntry) : Prop where
  message : e.message.Exchangeable levels
  line : ∀ line, e.line = some line → line < twoPow 64

end LogEntry

theorem LogKind.ofName?_name (kind : LogKind) : LogKind.ofName? kind.name = some kind := by
  cases kind <;> decide

theorem LogLevel.ofName?_name (level : LogLevel) : LogLevel.ofName? level.name = some level := by
  cases level <;> decide

namespace Reply

theorem readable_optional_nat {levels : Nat} {n : Option Nat}
    (h : ∀ k, n = some k → k < twoPow 64) : Readable levels (Json.optional .nat n) := by
  cases n with
  | none => exact .null
  | some k => exact Snapshot.readable_nat (h k rfl)

theorem readable_logEntry {levels : Nat} {e : LogEntry} (h : e.Exchangeable levels) :
    Readable (levels + 1) e.encode :=
  .object (show ["type", "level", "message", "line"].Nodup by decide)
    (List.forall_mem_cons.mpr ⟨.string _, List.forall_mem_cons.mpr ⟨.string _,
      List.forall_mem_cons.mpr ⟨h.message.readable,
        List.forall_mem_singleton.mpr (readable_optional_nat h.line)⟩⟩⟩)

theorem logEntry?_draft {e : LogEntry} (h : e.Exchangeable (maxLevels - 3)) :
    logEntry? e.encode.draft = some e.unsigned := by
  let names := ["type", "level", "message", "line"]
  let fields : List (String × Json) := [("type", .string e.kind.name),
    ("level", .string e.level.name), ("message", e.message.encode),
    ("line", Json.optional .nat e.line)]
  have hkeys : (Fields.keys fields).Nodup := show names.Nodup by decide
  have hrecord : recordFields? names e.encode.draft = some (draftsOf names fields) :=
    recordFields?_draft hkeys names
  have hkind : required (draftsOf names fields) "type" (name? LogKind.ofName?) = some e.kind :=
    required_draftsOf (by decide) rfl (LogKind.ofName?_name e.kind)
  have hlevel : required (draftsOf names fields) "level" (name? LogLevel.ofName?) = some e.level :=
    required_draftsOf (by decide) rfl (LogLevel.ofName?_name e.level)
  have hmessage : required (draftsOf names fields) "message" (snapshot? (maxLevels - 3)) =
      some e.message.unsigned :=
    required_draftsOf (by decide) rfl (snapshot?_draft h.message)
  have hline : Reply.optional (draftsOf names fields) "line" none (nullable count?) =
      some e.line := by
    have hget : Fields.get? fields "line" = (some e.line).map (Json.optional .nat) := rfl
    exact optional_draftsOf (by decide) hget fun n _ => nullable_count? n
  unfold logEntry?
  rw [hrecord]
  simp only [Option.bind_eq_bind, Option.bind_some, hkind, hlevel, hmessage, hline]
  rfl

theorem logEntries?_draft {logs : List LogEntry}
    (h : ∀ e ∈ logs, e.Exchangeable (maxLevels - 3)) :
    logEntries? (Json.array (logs.map LogEntry.encode)).draft =
      some (logs.map LogEntry.unsigned) := by
  show (draftItems (logs.map LogEntry.encode)).mapM logEntry? = _
  induction logs with
  | nil => rfl
  | cons e logs ih =>
    obtain ⟨he, hlogs⟩ := List.forall_mem_cons.mp h
    rw [List.map_cons, draftItems, List.mapM_cons, logEntry?_draft he, ih hlogs]
    rfl

end Reply

/-! ## Reports -/

/-- A parse error as a runtime writes it. -/
def ReportedSyntaxError.encode (e : ReportedSyntaxError) : Json :=
  .object [("message", .string e.message), ("line", .nat e.position.line),
    ("column", .nat e.position.column)]

/-- What a runtime has to say. A field may be left out, and most may be null. -/
structure Report where
  success : Bool
  syntaxError : Option (Option ReportedSyntaxError)
  result : Option Snapshot
  resultLine : Option (Option Nat)
  error : Option (Option String)
  errorLine : Option (Option Nat)
  timedOut : Option Bool
  output : Option (List LogEntry)

namespace Report

/-- The logs of a report, without the signs of negative zeros. -/
def logs (r : Report) : List LogEntry := (r.output.getD []).map LogEntry.unsigned

/-- The reply that a report is read as. -/
def reply (r : Report) : Reply where
  success := r.success
  syntaxError := r.syntaxError.join
  result := r.result.bind Reply.reportedValue
  resultLine := r.resultLine.join
  error := r.error.join
  errorLine := r.errorLine.join
  timedOut := r.timedOut.getD false
  output := r.logs

/-- The snapshots of the report are decoded from their texts. -/
structure Exchangeable (r : Report) : Prop where
  result : ∀ s, r.result = some s → s.Exchangeable (maxLevels - 1)
  output : ∀ logs, r.output = some logs → ∀ e ∈ logs, e.Exchangeable (maxLevels - 3)

end Report

/-- The fields of an object say what the report says. They may stand in any order, and there may
be others. -/
structure Carries (fields : List (String × Json)) (r : Report) : Prop where
  nodup : (Fields.keys fields).Nodup
  readable : ∀ entry ∈ fields, Readable (maxLevels - 1) entry.2
  success : Fields.get? fields "success" = some (.bool r.success)
  syntaxError : Fields.get? fields "syntaxError" =
    r.syntaxError.map (Json.optional ReportedSyntaxError.encode)
  result : Fields.get? fields "result" = r.result.map Snapshot.encode
  resultLine : Fields.get? fields "resultLine" = r.resultLine.map (Json.optional .nat)
  error : Fields.get? fields "error" = r.error.map (Json.optional .string)
  errorLine : Fields.get? fields "errorLine" = r.errorLine.map (Json.optional .nat)
  timedOut : Fields.get? fields "timedOut" = r.timedOut.map .bool
  output : Fields.get? fields "output" = r.output.map fun logs => .array (logs.map LogEntry.encode)

namespace Reply

theorem syntaxError?_draft (e : ReportedSyntaxError) : syntaxError? e.encode.draft = some e := by
  let names := ["message", "line", "column"]
  let fields : List (String × Json) := [("message", .string e.message),
    ("line", .nat e.position.line), ("column", .nat e.position.column)]
  have hkeys : (Fields.keys fields).Nodup := show names.Nodup by decide
  have hrecord : recordFields? names e.encode.draft = some (draftsOf names fields) :=
    recordFields?_draft hkeys names
  have hmessage : required (draftsOf names fields) "message" string? = some e.message :=
    required_draftsOf (by decide) rfl rfl
  have hline : required (draftsOf names fields) "line" count? = some e.position.line :=
    required_draftsOf (by decide) rfl rfl
  have hcolumn : required (draftsOf names fields) "column" count? = some e.position.column :=
    required_draftsOf (by decide) rfl rfl
  rw [syntaxError?, hrecord]
  simp only [Option.bind_eq_bind, Option.bind_some, hmessage, hline, hcolumn]
  rfl

theorem nullable_syntaxError? (e : Option ReportedSyntaxError) :
    nullable syntaxError? (Json.optional ReportedSyntaxError.encode e).draft = some e := by
  cases e with
  | none => rfl
  | some e => exact congrArg (Option.map some) (syntaxError?_draft e)

theorem ofDraft?_of_carries {fields : List (String × Json)} {r : Report} (h : Carries fields r)
    (hr : r.Exchangeable) : ofDraft? (Json.object fields).draft = some r.reply := by
  let known := draftsOf fieldNames fields
  have hrecord : recordFields? fieldNames (Json.object fields).draft = some known :=
    recordFields?_draft h.nodup fieldNames
  have hsuccess : required known "success" bool? = some r.success :=
    required_draftsOf (by decide) h.success rfl
  have hsyntax : Reply.optional known "syntaxError" none (nullable syntaxError?) =
      some r.syntaxError.join :=
    optional_join (by decide) h.syntaxError nullable_syntaxError?
  have hresult : Reply.optional known "result" none (nullable (snapshot? (maxLevels - 1))) =
      some (r.result.bind reportedValue) := by
    rw [optional_draftsOf (by decide) h.result fun s hs => nullable_snapshot? (hr.result s hs)]
    cases r.result <;> rfl
  have hresultLine : Reply.optional known "resultLine" none (nullable count?) =
      some r.resultLine.join :=
    optional_join (by decide) h.resultLine nullable_count?
  have herror : Reply.optional known "error" none (nullable string?) = some r.error.join :=
    optional_join (by decide) h.error nullable_string?
  have herrorLine : Reply.optional known "errorLine" none (nullable count?) =
      some r.errorLine.join :=
    optional_join (by decide) h.errorLine nullable_count?
  have htimedOut : Reply.optional known "timedOut" false bool? =
      some (r.timedOut.getD false) := by
    rw [optional_draftsOf (by decide) h.timedOut fun b _ => (rfl : bool? (Json.bool b).draft = _)]
    cases r.timedOut <;> rfl
  have houtput : Reply.optional known "output" [] logEntries? = some r.logs := by
    rw [optional_draftsOf (by decide) h.output fun logs hlogs =>
      logEntries?_draft (hr.output logs hlogs), Report.logs]
    cases r.output <;> rfl
  rw [ofDraft?, hrecord]
  simp only [Option.bind_eq_bind, Option.bind_some, hsuccess, hsyntax, hresult, hresultLine, herror,
    herrorLine, htimedOut, houtput]
  rfl

/-! ## Lines -/

/-- A line of one object, whose fields carry a report, is read as that report, whatever blanks
stand around it. -/
theorem ofLine?_of_carries {fields : List (String × Json)} {r : Report} (h : Carries fields r)
    (hr : r.Exchangeable) {before after : List Char} (hbefore : ∀ c ∈ before, isBlank c = true)
    (hafter : ∀ c ∈ after, isBlank c = true) :
    ofLine? (before ++ compactChars (.object fields) ++ after) = some r.reply := by
  have htext : compactChars (.object fields) = '{' :: fieldsCompact fields ++ ['}'] := rfl
  have htrim : trim (before ++ compactChars (.object fields) ++ after) =
      compactChars (.object fields) := by
    refine trim_append hbefore hafter ?_ ?_ ?_
    · rintro _ ⟨⟩
      decide
    · rw [htext, List.getLast?_append]
      rintro _ ⟨⟩
      decide
    · exact List.cons_ne_nil _ _
  have hread : Draft.read? (compactChars (.object fields)) = some (Json.object fields).draft :=
    draftRead?_compactChars (.object h.nodup h.readable)
  have hhead : (compactChars (.object fields)).head? = some '{' := rfl
  rw [ofLine?, htrim]
  simp only [hhead, if_true, hread, Option.bind_some]
  exact ofDraft?_of_carries h hr

end Reply

/-! ## Runs -/

/-- An entry that shows an inspected value. -/
structure LogEntry.Inspected (e : LogEntry) : Prop where
  message : ∃ (V : Type) (view : Inspectable V) (root : V),
    view.Sendable root ∧ e.message = view.inspect root
  line : ∀ line, e.line = some line → line < twoPow 64

theorem LogEntry.Inspected.exchangeable {e : LogEntry} (h : e.Inspected) :
    e.Exchangeable (maxLevels - 3) := by
  obtain ⟨⟨V, view, root, hroot, hmessage⟩, hline⟩ := h
  refine ⟨?_, hline⟩
  rw [hmessage]
  exact hroot.exchangeable_inspect.mono (by decide)

namespace Report

/-- The report of a script that ended with a value. -/
def completed (value : Snapshot) (resultLine : Option Nat) (logs : List LogEntry) : Report where
  success := true
  syntaxError := none
  result := some value
  resultLine := some resultLine
  error := none
  errorLine := none
  timedOut := none
  output := some logs

/-- The object in which a runtime writes it. -/
def completedFields (value : Snapshot) (resultLine : Option Nat) (logs : List LogEntry) :
    List (String × Json) :=
  [("success", .bool true), ("result", value.encode), ("resultLine", Json.optional .nat resultLine),
    ("output", .array (logs.map LogEntry.encode))]

theorem carries_completed {value : Snapshot} {resultLine : Option Nat} {logs : List LogEntry}
    (hvalue : value.Exchangeable (maxLevels - 1))
    (hresultLine : ∀ n, resultLine = some n → n < twoPow 64)
    (hlogs : ∀ e ∈ logs, e.Exchangeable (maxLevels - 3)) :
    Carries (completedFields value resultLine logs) (completed value resultLine logs) where
  nodup := show ["success", "result", "resultLine", "output"].Nodup by decide
  readable := by
    have hentries : Readable (maxLevels - 1) (.array (logs.map LogEntry.encode)) := by
      refine .array fun j hj => ?_
      obtain ⟨e, he, rfl⟩ := List.mem_map.mp hj
      exact Reply.readable_logEntry (hlogs e he)
    exact List.forall_mem_cons.mpr ⟨.bool true, List.forall_mem_cons.mpr ⟨hvalue.readable,
      List.forall_mem_cons.mpr ⟨Reply.readable_optional_nat hresultLine,
        List.forall_mem_singleton.mpr hentries⟩⟩⟩
  success := rfl
  syntaxError := rfl
  result := rfl
  resultLine := rfl
  error := rfl
  errorLine := rfl
  timedOut := rfl
  output := rfl

end Report

/-- What a runtime reports of a run is what the run ends with, whatever blanks stand around the
line. A value arrives as it was inspected, null included, but for the signs of zeros; a failure is
a parse error before it is a timeout, and a timeout before it is an exception; and the logs
arrive in order in each case. The text of a double is taken to be read back. -/
theorem Reply.toOutput_ofLine? {before after : List Char}
    (hbefore : ∀ c ∈ before, isBlank c = true) (hafter : ∀ c ∈ after, isBlank c = true) :
    (∀ {V : Type} (view : Inspectable V) (root : V), view.Sendable root →
      ∀ resultLine : Option Nat, (∀ n, resultLine = some n → n < twoPow 64) →
      ∀ logs : List LogEntry, (∀ e ∈ logs, e.Inspected) →
        ∃ reply, ofLine? (before ++ compactChars (.object
            (Report.completedFields (view.inspect root) resultLine logs)) ++ after) = some reply ∧
          ∀ source timeout, reply.toOutput source timeout =
            .completed (view.inspect root).unsigned resultLine (logs.map LogEntry.unsigned)) ∧
    ∀ (fields : List (String × Json)) (r : Report), Carries fields r → r.Exchangeable →
      r.success = false →
        ∃ reply, ofLine? (before ++ compactChars (.object fields) ++ after) = some reply ∧
          ∀ source timeout,
            (∀ e, r.syntaxError.join = some e → reply.toOutput source timeout =
              .failed (.syntaxError source e.message e.position) r.logs) ∧
            (r.syntaxError.join = none → r.timedOut = some true →
              reply.toOutput source timeout = .failed (.timeout timeout) r.logs) ∧
            (r.syntaxError.join = none → r.timedOut ≠ some true →
              reply.toOutput source timeout =
                .failed (.runtime (r.error.join.getD "Error: unknown failure") r.errorLine.join)
                  r.logs) := by
  refine ⟨fun {V} view root hroot resultLine hresultLine logs hlogs => ?_,
    fun fields r hcarries hexchange hsuccess => ?_⟩
  · have hvalue := hroot.exchangeable_inspect.mono (show 23 ≤ maxLevels - 1 by decide)
    have hentries : ∀ e ∈ logs, e.Exchangeable (maxLevels - 3) :=
      fun e he => (hlogs e he).exchangeable
    have hexchange : (Report.completed (view.inspect root) resultLine logs).Exchangeable :=
      ⟨by rintro _ ⟨⟩; exact hvalue, by rintro _ ⟨⟩; exact hentries⟩
    refine ⟨_, ofLine?_of_carries (Report.carries_completed hvalue hresultLine hentries) hexchange
      hbefore hafter, fun source timeout => ?_⟩
    have hresult := getD_reportedValue (view.inspect root)
    show RunOutput.completed ((reportedValue (view.inspect root)).getD .null) _ _ = _
    rw [hresult]
    rfl
  · refine ⟨r.reply, ofLine?_of_carries hcarries hexchange hbefore hafter, fun source timeout => ?_⟩
    refine ⟨fun e he => ?_, fun hsyntax htimedOut => ?_, fun hsyntax htimedOut => ?_⟩
    · simp only [toOutput, Report.reply, he]
    · simp [toOutput, Report.reply, hsyntax, hsuccess, htimedOut]
    · have hnot : r.timedOut.getD false = false := by
        cases h : r.timedOut with
        | none => rfl
        | some b =>
          cases b with
          | false => rfl
          | true => exact absurd h htimedOut
      simp [toOutput, Report.reply, hsyntax, hsuccess, hnot]

namespace Reply

/-- A number that is written as a double. -/
def large : Double := .ofNat 1152921504606846976

theorem readsBack_large : large.ReadsBack := by
  have hread : ∃ finite : large.isFinite = true, readNumber (large.format .json).toList =
      some (some (.double large finite), []) := by decide +kernel
  obtain ⟨_, hread⟩ := hread
  exact fun _ _ _ _ => hread

/-- An array of a large number, a big integer and itself. -/
def parcel : Heap := [.ofItems [.number large, .bigint "-12", .ref 0]]

theorem sendable_parcel : parcel.view.Sendable (.ref 0) := by
  have hmem {v : Value} (hv : Relation.ReflTransGen parcel.view.Child (.ref 0) v) :
      v = .ref 0 ∨ v = .number large ∨ v = .bigint "-12" := by
    have hv : v ∈ [Value.ref 0, .number large, .bigint "-12", .ref 0] :=
      Heap.mem_values_of_reachable hv
    simp only [List.mem_cons, List.not_mem_nil, or_false] at hv
    rcases hv with hv | hv | hv | hv
    · exact Or.inl hv
    · exact Or.inr (Or.inl hv)
    · exact Or.inr (Or.inr hv)
    · exact Or.inl hv
  constructor
  · intro v digits hv hkind
    rcases hmem hv with rfl | rfl | rfl
    · cases hkind
    · cases hkind
    · cases hkind
      exact ⟨['1', '2'], List.all_eq_true.mp (by decide), Or.inr (by decide)⟩
  · intro v length hv hkind
    rcases hmem hv with rfl | rfl | rfl
    · cases hkind
      decide
    · cases hkind
    · cases hkind
  · intro v d hv hkind
    rcases hmem hv with rfl | rfl | rfl
    · cases hkind
    · cases hkind
      exact readsBack_large
    · cases hkind

/-- An entry that shows the array. -/
def parcelEntry : LogEntry := ⟨.warn, .warn, parcel.inspect (.ref 0), some 2⟩

theorem inspected_parcelEntry : parcelEntry.Inspected :=
  ⟨⟨Value, parcel.view, .ref 0, sendable_parcel, rfl⟩, by rintro _ ⟨⟩; decide⟩

/-- The report of a run that was stopped, in an object with a field that is not known. -/
def stopped : Report := ⟨false, none, none, none, some none, none, some true, some [parcelEntry]⟩

def stoppedFields : List (String × Json) :=
  [("timedOut", .bool true), ("error", .null), ("elapsed", .nat 251), ("success", .bool false),
    ("output", .array [parcelEntry.encode])]

theorem carries_stopped : Carries stoppedFields stopped where
  nodup := by decide
  readable := by
    have hentries : Readable (maxLevels - 1) (.array [parcelEntry.encode]) :=
      .array (List.forall_mem_singleton.mpr
        (readable_logEntry inspected_parcelEntry.exchangeable))
    exact List.forall_mem_cons.mpr ⟨.bool true, List.forall_mem_cons.mpr ⟨.null,
      List.forall_mem_cons.mpr ⟨Snapshot.readable_nat (by decide),
        List.forall_mem_cons.mpr ⟨.bool false, List.forall_mem_singleton.mpr hentries⟩⟩⟩⟩
  success := rfl
  syntaxError := rfl
  result := rfl
  resultLine := rfl
  error := rfl
  errorLine := rfl
  timedOut := rfl
  output := rfl

theorem toOutput_ofLine?_parcel :
    parcel.view.Sendable (.ref 0) ∧ parcelEntry.Inspected ∧ Carries stoppedFields stopped ∧
    (∃ reply, ofLine? ([' '] ++ compactChars (.object
        (Report.completedFields (parcel.inspect (.ref 0)) (some 1) [parcelEntry])) ++ ['\n']) =
          some reply ∧
      reply.toOutput [] 250 =
        .completed (parcel.inspect (.ref 0)).unsigned (some 1) [parcelEntry.unsigned]) ∧
    ∃ reply, ofLine? ([' '] ++ compactChars (.object stoppedFields) ++ ['\n']) = some reply ∧
      reply.toOutput [] 250 = .failed (.timeout 250) [parcelEntry.unsigned] := by
  have hexchange : stopped.Exchangeable :=
    ⟨by rintro _ ⟨⟩, by
      rintro _ ⟨⟩
      exact List.forall_mem_singleton.mpr inspected_parcelEntry.exchangeable⟩
  obtain ⟨hcompleted, hfailed⟩ := toOutput_ofLine?
    (List.all_eq_true.mp (by decide : [' '].all isBlank = true))
    (List.all_eq_true.mp (by decide : ['\n'].all isBlank = true))
  obtain ⟨reply, hreply, houtput⟩ := hcompleted parcel.view (.ref 0) sendable_parcel (some 1)
    (by rintro _ ⟨⟩; decide) [parcelEntry] (List.forall_mem_singleton.mpr inspected_parcelEntry)
  obtain ⟨reply', hreply', houtput'⟩ := hfailed stoppedFields stopped carries_stopped hexchange rfl
  exact ⟨sendable_parcel, inspected_parcelEntry, carries_stopped, ⟨reply, hreply, houtput [] 250⟩,
    reply', hreply', (houtput' [] 250).2.1 rfl rfl⟩

end Reply

end SnippetRunner
