/-
A command does all of its work or none of it. `Job.perform_run_of_error` and
`Job.perform_run_of_ok` say what a job comes to on any files that have a state; from them,
`Command.perform_allOrNothing`: a command that reports an error leaves that state as it was, and
one that succeeds has written the JSON of the value and a line feed. With compact JSON this is
one line of bytes, since only a line feed gives the byte of one, `feed_mem_toUTF8_iff`, and
compact JSON has none.
-/
import Mathlib.Control.Monad.Basic
import Mathlib.Tactic.SplitIfs
import ConstLang.Command
import ConstLang.Proofs.Json.Lines

namespace ConstLang

/-! ## Bytes of a line -/

/-- The byte of a line feed. -/
def feedByte : UInt8 := 0x0A

/-- Bytes with a single line feed, which is at their end. -/
def IsLine (bytes : ByteArray) : Prop :=
  ∃ front, bytes.data.toList = front ++ [feedByte] ∧ feedByte ∉ front

theorem feedByte_eq_ofNat_iff {n : Nat} (h : n < 256) : feedByte = UInt8.ofNat n ↔ n = 10 := by
  rw [← UInt8.toNat_inj, UInt8.toNat_ofNat_of_lt' h]
  exact eq_comm

/-- The encoding of no other character has the byte of a line feed in it. -/
theorem feed_mem_utf8EncodeChar_iff (c : Char) :
    feedByte ∈ String.utf8EncodeChar c ↔ c = '\n' := by
  by_cases hv : c.val.toNat ≤ 127
  · rw [String.utf8EncodeChar, if_pos hv, List.mem_singleton, feedByte_eq_ofNat_iff (by omega),
      ← Char.toNat_inj]
    rfl
  · have hc : c ≠ '\n' := by rintro rfl; exact hv (by decide)
    refine iff_of_false ?_ hc
    -- All bytes of a longer encoding are at least 128.
    rw [String.utf8EncodeChar, if_neg hv]
    split_ifs <;> simp (disch := omega) only [List.mem_cons, List.not_mem_nil, or_false,
      feedByte_eq_ofNat_iff] <;> omega

theorem feed_mem_toUTF8_iff (s : String) :
    feedByte ∈ s.toUTF8.data.toList ↔ '\n' ∈ s.toList := by
  have hs : s.toUTF8 = s.toList.utf8Encode := by
    rw [← String.toByteArray_ofList, String.ofList_toList]
    rfl
  rw [hs, List.utf8Encode, List.data_toByteArray]
  simp only [List.mem_flatMap, feed_mem_utf8EncodeChar_iff, exists_eq_right]

/-- A text without line feeds makes a line. -/
theorem isLine_toUTF8 {s : String} (h : '\n' ∉ s.toList) : IsLine (s ++ "\n").toUTF8 := by
  refine ⟨s.toUTF8.data.toList, ?_, fun hm => h ((feed_mem_toUTF8_iff s).mp hm)⟩
  rw [String.toUTF8_eq_toByteArray, String.toByteArray_append, ByteArray.toList_data_append]
  rfl

/-! ## What a job comes to -/

theorem Error.report_ne (text : String) (e : Error) : e.report text ≠ "" := by
  unfold Error.report
  cases e <;> simp [String.append_eq_empty_iff]

namespace Job

variable {job : Job} {bytes : ByteArray}

/-- The text that a job writes for a value. -/
def json (job : Job) (v : Value) : String :=
  v.toJson (if job.compact then .compact else .pretty) ++ "\n"

theorem result_of_not_text (h : String.fromUTF8? bytes = none) :
    ∃ report, report ≠ "" ∧ job.result (.ok bytes) = .error report := by
  refine ⟨_, ?_, by rw [result, h]⟩
  decide

theorem result_of_compile_error {text : String} {e : Error}
    (ht : String.fromUTF8? bytes = some text)
    (he : compile { strict := job.strict } text = .error e) :
    job.result (.ok bytes) = .error (e.report text) := by
  simp only [result, ht, he]

theorem result_of_compile {text : String} {e : Evaluation}
    (ht : String.fromUTF8? bytes = some text)
    (he : compile { strict := job.strict } text = .ok e) :
    job.result (.ok bytes) = .ok (job.json e.value) := by
  simp only [result, ht, he, json]

/-- Compact output is a line. -/
theorem isLine_json (h : job.compact = true) (v : Value) : IsLine (job.json v).toUTF8 := by
  rw [json, if_pos h]
  exact isLine_toUTF8 (Json.feed_notMem_toJson v)

section Run

variable {σ : Type} {files : FileSystem σ} {s : σ}

/-- A job that has nothing to write leaves the files alone. -/
theorem perform_run_of_error {report : String}
    (h : job.result (files.read s job.input) = .error report) :
    (job.perform files.access).run s = ({ exitCode := 1, stderr := report }, s) := by
  simp only [perform, StateT.run_bind, FileSystem.run_read, pure_bind, h]
  rfl

/-- A job that has something to write comes to what writing comes to. -/
theorem perform_run_of_ok {text : String}
    (h : job.result (files.read s job.input) = .ok text) :
    (job.perform files.access).run s =
      match files.write s job.output text.toUTF8 with
      | .ok s' => ({ exitCode := 0 }, s')
      | .error reason => ({ exitCode := 1, stderr := writeFailure reason }, s) := by
  simp only [perform, StateT.run_bind, FileSystem.run_read, pure_bind, h]
  cases hw : files.write s job.output text.toUTF8 with
  | ok s' =>
    rw [FileSystem.run_write_of_ok hw]
    rfl
  | error reason =>
    rw [FileSystem.run_write_of_error hw]
    rfl

/-- What is wrong with the text is reported. -/
theorem perform_run_of_compile_error {text : String} {e : Error}
    (hread : files.read s job.input = .ok bytes) (ht : String.fromUTF8? bytes = some text)
    (he : compile { strict := job.strict } text = .error e) :
    (job.perform files.access).run s = ({ exitCode := 1, stderr := e.report text }, s) := by
  refine perform_run_of_error ?_
  rw [hread, result_of_compile_error ht he]

end Run

end Job

namespace Command

theorem perform_of_job {m : Type → Type} [Monad m] {files : FileAccess m}
    {arguments : List String} {job : Job}
    (h : Request.ofArguments arguments = .ok (.compile job)) :
    perform files arguments = job.perform files := by
  simp only [perform, h]

/-- **A command is all or nothing.** If the input is no text, or a text that has no value, there
is a report, and the files are as they were, the output among them. Otherwise the JSON of the
value and a line feed are written, in one line if it is compact: if that succeeds, nothing is
said, and the output is what was written; if it fails, the report says why, and again the files
are as they were. Nothing is asked of the two paths, which can be the same. -/
theorem perform_allOrNothing {σ : Type} (files : FileSystem σ) {arguments : List String} {job : Job}
    {s : σ} {bytes : ByteArray} (hjob : Request.ofArguments arguments = .ok (.compile job))
    (hread : files.read s job.input = .ok bytes) :
    ((String.fromUTF8? bytes = none ∨ ∃ text e, String.fromUTF8? bytes = some text ∧
        compile { strict := job.strict } text = .error e) →
      ∃ report, report ≠ "" ∧ (perform files.access arguments).run s =
        ({ exitCode := 1, stdout := "", stderr := report }, s)) ∧
    ∀ text e, String.fromUTF8? bytes = some text →
      compile { strict := job.strict } text = .ok e →
      ∃ content, content =
          (e.value.toJson (if job.compact then .compact else .pretty) ++ "\n").toUTF8 ∧
        (job.compact = true → IsLine content) ∧
        (∀ s', files.write s job.output content = .ok s' →
          (perform files.access arguments).run s =
            ({ exitCode := 0, stdout := "", stderr := "" }, s') ∧
          files.read s' job.output = .ok content) ∧
        ∀ reason, files.write s job.output content = .error reason →
          (perform files.access arguments).run s =
            ({ exitCode := 1, stdout := "",
               stderr := "Cannot write output file: " ++ reason ++ "\n" }, s) := by
  rw [perform_of_job hjob]
  refine ⟨fun hfail => ?_, fun text e ht he => ?_⟩
  · rcases hfail with hnone | ⟨text, e, ht, he⟩
    · obtain ⟨report, hne, hresult⟩ :
          ∃ report, report ≠ "" ∧ job.result (.ok bytes) = .error report :=
        Job.result_of_not_text hnone
      exact ⟨report, hne, Job.perform_run_of_error (hread ▸ hresult)⟩
    · exact ⟨_, e.report_ne text, Job.perform_run_of_compile_error hread ht he⟩
  · have hresult : job.result (files.read s job.input) = .ok (job.json e.value) :=
      hread ▸ Job.result_of_compile ht he
    have hrun := Job.perform_run_of_ok hresult
    refine ⟨(job.json e.value).toUTF8, rfl, fun hc => Job.isLine_json hc _, fun s' hw => ?_,
      fun reason hw => ?_⟩
    · rw [hw] at hrun
      exact ⟨hrun, files.read_of_write hw⟩
    · rw [hw] at hrun
      exact hrun

/-- A file of several lines is replaced by its own value. -/
theorem perform_in_place : ∃ disk,
    (perform Disk.fileSystem.access ["-i", "f", "--compact", "--output=f"]).run
        (.ofFiles [("f", "x is [ .5 ]\n\n!( x )\n".toUTF8)]) =
      ({ exitCode := 0, stdout := "", stderr := "" }, disk) ∧
    Disk.fileSystem.read disk "f" = .ok "[0.5]\n".toUTF8 := by
  have hjob : Request.ofArguments ["-i", "f", "--compact", "--output=f"] =
      .ok (.compile { input := "f", output := "f", compact := true }) := by decide +kernel
  have hread : Disk.fileSystem.read (.ofFiles [("f", "x is [ .5 ]\n\n!( x )\n".toUTF8)]) "f" =
      .ok "x is [ .5 ]\n\n!( x )\n".toUTF8 := by decide +kernel
  have hjson : (compile {} "x is [ .5 ]\n\n!( x )\n").map (·.value.toJson .compact) =
      .ok "[0.5]" := by decide +kernel
  cases he : compile {} "x is [ .5 ]\n\n!( x )\n" with
  | error e => rw [he] at hjson; cases hjson
  | ok e =>
    have hcompact : e.value.toJson .compact = "[0.5]" := Except.ok.inj (he ▸ hjson)
    obtain ⟨content, hcontent, -, hok, -⟩ :=
      (perform_allOrNothing Disk.fileSystem hjob hread).2 _ e (by decide +kernel) he
    obtain rfl : content = "[0.5]\n".toUTF8 := by
      rw [hcontent, if_pos rfl, hcompact]
      rfl
    exact ⟨_, hok _ rfl⟩

end Command

end ConstLang
