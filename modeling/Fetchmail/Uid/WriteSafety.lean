import Fetchmail.Uid.SavedLists

/-!
# Writing the UID File

However the calls of `write_saved_lists` fail, the UID file is left as it was or holds the
complete new list. The stream is the file so far and its buffer: as long as no call fails,
the two together are what was written, and as soon as one fails, either `errflg` or the
error indicator of the stream says so when it comes to moving the new file into place.
-/

namespace Fetchmail.Uid

open Fetchmail.Lib

/-! ## Traces -/

/-- Some call failed. -/
def AnyFailed (tr : List Event) : Prop := ∃ call, .called call false ∈ tr

@[simp]
theorem not_anyFailed_nil : ¬ AnyFailed [] := by simp [AnyFailed]

@[simp]
theorem anyFailed_append {tr₁ tr₂ : List Event} :
    AnyFailed (tr₁ ++ tr₂) ↔ AnyFailed tr₁ ∨ AnyFailed tr₂ := by
  simp [AnyFailed, exists_or]

@[simp]
theorem anyFailed_called {call : Call} {ok : Bool} :
    AnyFailed [.called call ok] ↔ ok = false := by
  simp only [AnyFailed, List.mem_singleton, Event.called.injEq]
  constructor
  · rintro ⟨_, -, h⟩
    exact h.symm
  · exact fun h => ⟨call, rfl, h.symm⟩

/-! ## One stream -/

section

variable {ω : Type} (io : Stdio ω) {path : Bytes} {s s' : Store ω} {tr : List Event}

/-- What was written to the stream: the file, and what is still in the buffer. -/
def Store.content (path : Bytes) (s : Store ω) : Bytes := (s.files path).getD [] ++ s.buffered

/-- From `s` to `s'` no file but that of the stream changes. -/
def OthersKept (path : Bytes) (s s' : Store ω) : Prop :=
  ∀ other, other ≠ path → s'.files other = s.files other

theorem OthersKept.trans {s₁ s₂ s₃ : Store ω} (h₁ : OthersKept path s₁ s₂)
    (h₂ : OthersKept path s₂ s₃) : OthersKept path s₁ s₃ :=
  fun other hother => (h₂ other hother).trans (h₁ other hother)

/-- A flush moves data, and loses none. -/
@[simp]
theorem content_flush (n : Nat) : (s.flush path n).content path = s.content path := by
  simp [Store.content, Store.flush, List.append_assoc]

/-- A part of the writing, which puts `data` into the stream and returns whether it failed:
failures are told, and without one the data is there. -/
structure Wrote (path data : Bytes) (s : Store ω) (failed : Bool) (s' : Store ω)
    (tr : List Event) : Prop where
  others : OthersKept path s s'
  told : AnyFailed tr → failed = true
  done : ¬ AnyFailed tr → failed = false ∧ s'.error = s.error ∧
    s'.content path = s.content path ++ data

theorem Wrote.nil : Wrote path [] s false s [] where
  others := fun _ _ => rfl
  told := fun h => absurd h not_anyFailed_nil
  done := fun _ => ⟨rfl, rfl, by simp⟩

/-- Two parts in succession, the second of which starts when the first did not fail. -/
theorem Wrote.append {data₁ data₂ : Bytes} {s₁ s₂ s₃ : Store ω} {tr₁ tr₂ : List Event}
    {failed : Bool} (h₁ : Wrote path data₁ s₁ false s₂ tr₁)
    (h₂ : Wrote path data₂ s₂ failed s₃ tr₂) :
    Wrote path (data₁ ++ data₂) s₁ failed s₃ (tr₁ ++ tr₂) where
  others := h₁.others.trans h₂.others
  told := by
    intro h
    rcases anyFailed_append.mp h with h | h
    · exact absurd (h₁.told h) Bool.false_ne_true
    · exact h₂.told h
  done := by
    intro h
    obtain ⟨hno₁, hno₂⟩ := not_or.mp (mt anyFailed_append.mpr h)
    obtain ⟨-, herror₁, hcontent₁⟩ := h₁.done hno₁
    obtain ⟨hfailed, herror₂, hcontent₂⟩ := h₂.done hno₂
    refine ⟨hfailed, herror₂.trans herror₁, ?_⟩
    rw [hcontent₂, hcontent₁, List.append_assoc]

/-- A part that failed is the whole of what happens, whatever data was left. -/
theorem Wrote.stop {data : Bytes} (h : Wrote path data s true s' tr) (more : Bytes) :
    Wrote path (data ++ more) s true s' tr where
  others := h.others
  told := h.told
  done := fun hno => absurd (h.done hno).1 Bool.noConfusion

/-- One call of `fprintf` or `fputs`. -/
theorem write_spec (data : Bytes) (s : Store ω) :
    (write io path data).wp (fun ok s' tr => Wrote path data s (!ok) s' tr) s := by
  unfold write ask
  simp only [Act.wp_bind, Act.wp_lift, Act.wp_emit, Act.wp_modify, Act.wp_pure, List.nil_append,
    List.append_nil]
  cases (io.write data s.world).1 with
  | all flushed =>
    refine ⟨fun other hother => ?_, by simp [Written.ok], fun _ => ⟨rfl, rfl, ?_⟩⟩
    · simp [Store.written, Store.flush, hother]
    · simp only [Store.written, content_flush]
      simp [Store.content, List.append_assoc]
  | failed taken flushed sticky =>
    refine ⟨fun other hother => ?_, fun _ => rfl, by simp [Written.ok]⟩
    simp [Store.written, Store.flush, hother]

/-! ## The lists -/

/-- The lines a host contributes. -/
def hostLines (ctl : Query) : Bytes :=
  ((ctl.oldsaved.records.filter Record.saved).map (recordLine ctl)).flatten

/-- The complete list. -/
def savedLists (hostlist : List Query) (scratchlist : List Bytes) : Bytes :=
  (hostlist.map hostLines).flatten ++ scratchlist.flatten

/-- The callback, on one record. -/
theorem writeUidDbRecord_spec (ctl : Query) (rec : Record) (s : Store ω) :
    (writeUidDbRecord io path ctl rec).wp (fun rc s' tr => (rc = 0 ∨ rc = -1) ∧
      Wrote path (if rec.saved then recordLine ctl rec else []) s (rc ≠ 0) s' tr) s := by
  unfold writeUidDbRecord
  simp only [Act.wp_ite, Act.wp_bind, Act.wp_pure, List.append_nil]
  refine ⟨fun hsaved => ⟨Or.inl trivial, ?_⟩, fun hsaved => ?_⟩
  · rw [if_neg (by simpa using hsaved)]
    exact Wrote.nil
  · have hsaved : rec.saved = true := by simpa using hsaved
    rw [if_pos hsaved]
    refine Act.wp_mono (write_spec io (recordLine ctl rec) s) fun ok s' tr h => ?_
    cases ok with
    | true => exact ⟨fun _ => ⟨Or.inl trivial, h⟩, fun hne => absurd rfl hne⟩
    | false => exact ⟨fun h => absurd h Bool.false_ne_true, fun _ => ⟨Or.inr trivial, h⟩⟩

/-- The traversal of one database, by induction over its records. -/
theorem traverseUidDb_spec (ctl : Query) (recs : List Record) (s : Store ω) :
    (traverseUidDb (writeUidDbRecord io path ctl) recs).wp (fun rc s' tr =>
      Wrote path ((recs.filter Record.saved).map (recordLine ctl)).flatten s (rc < 0) s' tr) s := by
  induction recs generalizing s with
  | nil => exact Wrote.nil
  | cons rec recs ih =>
    have hdata : (((rec :: recs).filter Record.saved).map (recordLine ctl)).flatten =
        (if rec.saved then recordLine ctl rec else []) ++
          ((recs.filter Record.saved).map (recordLine ctl)).flatten := by
      rw [List.filter_cons]
      split <;> simp
    rw [hdata]
    unfold traverseUidDb
    simp only [Act.wp_bind, Act.wp_ite, Act.wp_pure, List.append_nil]
    refine Act.wp_mono (writeUidDbRecord_spec io ctl rec s) fun rc s₁ tr₁ hspec => ?_
    obtain ⟨hrc, h₁⟩ := hspec
    rcases hrc with rfl | rfl
    · refine ⟨fun _ => ?_, fun hne => absurd rfl hne⟩
      exact Act.wp_mono (ih s₁) fun rc s₂ tr₂ h₂ => h₁.append h₂
    · exact ⟨fun hzero => absurd hzero (by decide), fun _ => h₁.stop _⟩

/-- The loop over the hosts. -/
theorem writeHosts_spec (hostlist : List Query) (s : Store ω) :
    (writeHosts io path hostlist).wp (fun failed s' tr =>
      Wrote path (hostlist.map hostLines).flatten s failed s' tr) s := by
  induction hostlist generalizing s with
  | nil => exact Wrote.nil
  | cons ctl hostlist ih =>
    rw [List.map_cons, List.flatten_cons]
    unfold writeHosts
    simp only [Act.wp_bind, Act.wp_ite, Act.wp_pure, List.append_nil]
    refine Act.wp_mono (traverseUidDb_spec io ctl _ s) fun rc s₁ tr₁ h₁ => ⟨fun hneg => ?_, fun hneg => ?_⟩
    · rw [decide_eq_true hneg] at h₁
      exact h₁.stop _
    · rw [decide_eq_false hneg] at h₁
      exact Act.wp_mono (ih s₁) fun failed s₂ tr₂ h₂ => h₁.append h₂

/-- The loop over the scratch list. -/
theorem writeScratch_spec (scratchlist : List Bytes) (s : Store ω) :
    (writeScratch io path scratchlist).wp (fun failed s' tr =>
      Wrote path scratchlist.flatten s failed s' tr) s := by
  induction scratchlist generalizing s with
  | nil => exact Wrote.nil
  | cons line scratchlist ih =>
    rw [List.flatten_cons]
    unfold writeScratch
    simp only [Act.wp_bind, Act.wp_ite, Act.wp_pure, List.append_nil]
    refine Act.wp_mono (write_spec io line s) fun ok s₁ tr₁ h₁ => ⟨fun hok => ?_, fun hok => ?_⟩
    · rw [hok] at h₁
      exact Act.wp_mono (ih s₁) fun failed s₂ tr₂ h₂ => h₁.append h₂
    · rw [Bool.eq_false_iff.mpr hok] at h₁
      exact h₁.stop _

theorem writeLists_spec (hostlist : List Query) (scratchlist : List Bytes) (s : Store ω) :
    (writeLists io path hostlist scratchlist).wp (fun failed s' tr =>
      Wrote path (savedLists hostlist scratchlist) s failed s' tr) s := by
  unfold writeLists savedLists
  simp only [Act.wp_bind, Act.wp_ite, Act.wp_pure, List.append_nil]
  refine Act.wp_mono (writeHosts_spec io hostlist s) fun failed s₁ tr₁ h₁ =>
    ⟨fun hfailed => ?_, fun hfailed => ?_⟩
  · rw [hfailed] at h₁
    exact h₁.stop _
  · rw [Bool.eq_false_iff.mpr hfailed] at h₁
    exact Act.wp_mono (writeScratch_spec io scratchlist s₁) fun failed s₂ tr₂ h₂ => h₁.append h₂

/-! ## Moving the file into place -/

/-- `fflush`: a failure is remembered by the stream. -/
theorem fflush_spec (s : Store ω) :
    (fflush io path).wp (fun _ s' tr => OthersKept path s s' ∧
      (AnyFailed tr → s'.error = true) ∧
      (¬ AnyFailed tr → s'.error = s.error ∧ s'.buffered = [] ∧
        s'.files path = some (s.content path))) s := by
  unfold fflush ask
  simp only [Act.wp_bind, Act.wp_lift, List.nil_append]
  cases (io.fflush s.world).1 with
  | none =>
    simp only [Act.wp_bind, Act.wp_emit, Act.wp_modify, List.append_nil]
    refine ⟨fun other hother => by simp [Store.flush, hother], by simp, fun _ => ⟨rfl, ?_, ?_⟩⟩
    · simp [Store.flush]
    · simp [Store.flush, Store.content]
  | some n =>
    simp only [Act.wp_bind, Act.wp_emit, Act.wp_modify, List.append_nil]
    exact ⟨fun other hother => by simp [Store.flush, hother], fun _ => rfl, by simp⟩

/-- `unlink` of another file. -/
theorem unlink_spec (s : Store ω) :
    (unlink io path).wp (fun _ s' tr => OthersKept path s s' ∧ ¬ AnyFailed tr) s := by
  unfold unlink ask
  simp only [Act.wp_bind, Act.wp_lift, Act.wp_ite, Act.wp_modify, Act.wp_pure, List.append_nil]
  exact ⟨fun _ => ⟨fun other hother => by simp [hother], not_anyFailed_nil⟩,
    fun _ => ⟨fun _ _ => rfl, not_anyFailed_nil⟩⟩

theorem newName_ne (idfile : Bytes) : idfile ≠ newName idfile := by
  intro h
  have hlen := congrArg List.length h
  rw [newName, List.length_append] at hlen
  have hone : (Bytes.lit "_").length = 1 := rfl
  omega

/-- `rename`: the target is replaced or left alone. -/
theorem rename_spec {target : Bytes} (hne : target ≠ path) (s : Store ω) :
    (rename io path target).wp (fun _ s' tr =>
      (AnyFailed tr → s'.files target = s.files target) ∧
      (¬ AnyFailed tr → s'.files target = s.files path)) s := by
  unfold rename ask
  simp only [Act.wp_bind, Act.wp_lift, Act.wp_emit, Act.wp_ite, Act.wp_modify, Act.wp_pure,
    List.nil_append, List.append_nil, anyFailed_called]
  refine ⟨fun hok => ⟨fun hfailed => ?_, fun _ => ?_⟩, fun hok => ⟨fun _ => trivial, fun hno => ?_⟩⟩
  · exact absurd (hok.symm.trans hfailed) Bool.noConfusion
  · simp [hne]
  · exact absurd (Bool.eq_false_iff.mpr hok) hno

/-- `fopen`: the stream is new. -/
theorem fopen_spec (s : Store ω) :
    (fopen io path).wp (fun ok s' tr => OthersKept path s s' ∧ (AnyFailed tr ↔ ok = false) ∧
      (ok = true → s'.error = false ∧ s'.content path = [])) s := by
  unfold fopen ask
  simp only [Act.wp_bind, Act.wp_lift, Act.wp_emit, Act.wp_ite, Act.wp_modify, Act.wp_pure,
    List.nil_append, List.append_nil, anyFailed_called]
  refine ⟨fun hok => ⟨fun other hother => ?_, ?_, fun _ => ⟨trivial, ?_⟩⟩,
    fun hok => ⟨fun _ _ => rfl, ?_, ?_⟩⟩
  · simp [hother]
  · simp [hok]
  · simp [Store.content]
  · simp [Bool.eq_false_iff.mpr hok]
  · simp

/-- What follows the label `bailout`. -/
theorem finish_spec {idfile : Bytes} (errflg : Bool) (s : Store ω) :
    (finish io (newName idfile) idfile errflg).wp (fun _ s' tr =>
      (errflg = true ∨ s.error = true ∨ AnyFailed tr → s'.files idfile = s.files idfile) ∧
      (errflg = false → s.error = false → ¬ AnyFailed tr →
        s'.files idfile = some (s.content (newName idfile)))) s := by
  have hne := newName_ne idfile
  unfold finish fclose ask
  simp only [Act.wp_bind, Act.wp_gets, Act.wp_lift, Act.wp_modify, Act.wp_ite, List.nil_append,
    List.append_nil]
  refine Act.wp_mono (fflush_spec io s) fun _ s₁ tr₁ hspec => ?_
  obtain ⟨hothers, htold, hdone⟩ := hspec
  have hkept : s₁.files idfile = s.files idfile := hothers idfile hne
  refine ⟨fun herr => ?_, fun herr => ?_⟩
  · -- the new file is dropped
    refine Act.wp_mono (unlink_spec io _) fun _ s₂ tr₂ hspec => ?_
    obtain ⟨hothers₂, hno⟩ := hspec
    have hkept₂ : s₂.files idfile = s.files idfile := by
      rw [hothers₂ idfile hne, ← hkept]
      simp [Store.flush, hne]
    refine ⟨fun _ => hkept₂, fun herrflg herror hnone => ?_⟩
    have herror₁ := (hdone fun h => hnone (anyFailed_append.mpr (Or.inl h))).1
    simp [herrflg, herror₁, herror] at herr
  · -- all went well so far, and the file is moved
    obtain ⟨herrflg, herror₁⟩ : errflg = false ∧ s₁.error = false := by simpa using herr
    -- an operation that failed would have set the error flag
    have hno₁ : ¬ AnyFailed tr₁ := fun h => by simp [htold h] at herror₁
    obtain ⟨herror, hbuffered, hfile⟩ := hdone hno₁
    refine Act.wp_mono (rename_spec io hne _) fun _ s₂ tr₂ hspec => ?_
    obtain ⟨hbad, hgood⟩ := hspec
    rw [anyFailed_append]
    refine ⟨fun h => ?_, fun _ _ hnone => ?_⟩
    · have hno₂ : AnyFailed tr₂ := by
        rcases h with h | h | h | h
        · exact absurd (h.symm.trans herrflg) Bool.noConfusion
        · exact absurd (h.symm.trans (herror.symm.trans herror₁)) Bool.noConfusion
        · exact absurd h hno₁
        · exact h
      -- the old file is still there if it could not be moved
      rw [hbad hno₂, ← hkept]
      simp [Store.flush, hne]
    · rw [hgood (fun h => hnone (Or.inr h))]
      simp [Store.flush, hbuffered, hfile]

/-- From the opening of the new file on. -/
theorem writeLists_finish_spec (hostlist : List Query) (scratchlist : List Bytes)
    (idfile : Bytes) (s : Store ω) (herror : s.error = false)
    (hcontent : s.content (newName idfile) = []) :
    (writeLists io (newName idfile) hostlist scratchlist >>= finish io (newName idfile) idfile).wp
      (fun _ s' tr => (AnyFailed tr → s'.files idfile = s.files idfile) ∧
        (¬ AnyFailed tr → s'.files idfile = some (savedLists hostlist scratchlist))) s := by
  have hne := newName_ne idfile
  rw [Act.wp_bind]
  refine Act.wp_mono (writeLists_spec io hostlist scratchlist s) fun errflg s₁ tr₁ hwrote => ?_
  refine Act.wp_mono (finish_spec io errflg s₁) fun _ s₂ tr₂ hspec => ?_
  obtain ⟨hbad, hgood⟩ := hspec
  have hkept : s₁.files idfile = s.files idfile := hwrote.others idfile hne
  rw [anyFailed_append]
  refine ⟨?_, fun hnone => ?_⟩
  · rintro (h | h)
    · exact (hbad (Or.inl (hwrote.told h))).trans hkept
    · exact (hbad (Or.inr (Or.inr h))).trans hkept
  · obtain ⟨hno₁, hno₂⟩ := not_or.mp hnone
    obtain ⟨herrflg, herror₁, hcontent₁⟩ := hwrote.done hno₁
    rw [hgood herrflg (herror₁.trans herror) hno₂, hcontent₁, hcontent, List.nil_append]

/-- **Writing the UID file is atomic**: with a failure among the calls the file is what it
was, and without one it is the complete list. -/
theorem writeSavedLists_atomic (hostlist : List Query) (scratchlist : List Bytes)
    (idfile : Bytes) (s : Store ω) (hsave : anythingToSave hostlist scratchlist = true) :
    (writeSavedLists io hostlist scratchlist idfile).wp (fun _ s' tr =>
      (AnyFailed tr → s'.files idfile = s.files idfile) ∧
      (¬ AnyFailed tr → s'.files idfile = some (savedLists hostlist scratchlist))) s := by
  have hne := newName_ne idfile
  unfold writeSavedLists
  rw [if_pos hsave]
  simp only [Act.wp_bind]
  -- up to `rename` only the scratch file is touched, which has another name
  refine Act.wp_mono (unlink_spec io s) fun _ s₁ tr₁ hspec => ?_
  obtain ⟨hothers, hno⟩ := hspec
  have hkept : s₁.files idfile = s.files idfile := hothers idfile hne
  refine Act.wp_mono (fopen_spec io s₁) fun ok s₂ tr₂ hspec => ?_
  obtain ⟨hothers₂, hopen, hnew⟩ := hspec
  have hkept₂ : s₂.files idfile = s.files idfile := (hothers₂ idfile hne).trans hkept
  cases ok with
  | false =>
    have hfailed : AnyFailed (tr₁ ++ (tr₂ ++ [])) :=
      anyFailed_append.mpr (Or.inr (anyFailed_append.mpr (Or.inl (hopen.mpr rfl))))
    exact ⟨fun _ => hkept₂, fun h => absurd hfailed h⟩
  | true =>
    obtain ⟨herror, hcontent⟩ := hnew rfl
    have hno₂ : ¬ AnyFailed tr₂ := fun h => absurd (hopen.mp h) Bool.noConfusion
    rw [if_pos rfl]
    refine Act.wp_mono (writeLists_finish_spec io hostlist scratchlist idfile s₂ herror hcontent)
      fun _ s₃ tr₃ hspec => ?_
    obtain ⟨hbad, hgood⟩ := hspec
    -- `unlink` may fail, as there need not be a scratch file; `fopen` has not failed here
    have hsplit : AnyFailed (tr₁ ++ (tr₂ ++ tr₃)) ↔ AnyFailed tr₃ := by
      simp [hno, hno₂]
    rw [hsplit]
    exact ⟨fun h => (hbad h).trans hkept₂, hgood⟩

end

/-- A file system with nothing wrong. -/
def plainStdio : Stdio Unit where
  fopen := fun _ => (true, ())
  write := fun _ _ => (.all 0, ())
  fflush := fun _ => (none, ())
  fclose := fun _ => (0, ())
  rename := fun _ => (true, ())
  unlink := fun _ => (true, ())

/-- The disk is full at the second write: two of four bytes that were taken arrive. -/
def fullDisk : Stdio Nat where
  fopen := fun n => (true, n)
  write := fun _ n => (if n = 1 then .failed 4 2 true else .all 7, n + 1)
  fflush := fun n => (none, n)
  fclose := fun n => (0, n)
  rename := fun n => (true, n)
  unlink := fun n => (true, n)

/-- It is full when the buffer is flushed, which no call before has noticed. -/
def lateFull : Stdio Unit := { plainStdio with fflush := fun _ => (some 5, ()) }

/-- A host with two UIDs to save, and one that is not. -/
def threeMails : Query where
  remotename := Bytes.lit "me"
  queryname := Bytes.lit "host"
  oldsaved :=
    { Db.initUidDb with
      records := [⟨Bytes.lit "1", .seen⟩, ⟨Bytes.lit "2", .unseen⟩, ⟨Bytes.lit "3", .deleted⟩] }

/-- The file of the last run, and nothing else. -/
def oldFile {ω : Type} (w : ω) : Store ω where
  files path := if path = Bytes.lit "ids" then some (Bytes.lit "me@host 0\n") else none
  buffered := []
  error := false
  world := w

/-- Where a write or the flush fails the old file is left, else there is the new one. -/
theorem writeSavedLists_atomic_fullDisk :
    ((writeSavedLists fullDisk [threeMails] [Bytes.lit "you@there 1\n"] (Bytes.lit "ids")).run
        (oldFile 0)).state.files (Bytes.lit "ids") = some (Bytes.lit "me@host 0\n") ∧
      ((writeSavedLists lateFull [threeMails] [Bytes.lit "you@there 1\n"] (Bytes.lit "ids")).run
        (oldFile ())).state.files (Bytes.lit "ids") = some (Bytes.lit "me@host 0\n") ∧
      ((writeSavedLists plainStdio [threeMails] [Bytes.lit "you@there 1\n"] (Bytes.lit "ids")).run
        (oldFile ())).state.files (Bytes.lit "ids") =
          some (Bytes.lit "me@host 1\nme@host 3\nyou@there 1\n") := by
  refine ⟨(writeSavedLists_atomic fullDisk _ _ _ _ rfl).1 ⟨.write, by decide⟩,
    (writeSavedLists_atomic lateFull _ _ _ _ rfl).1 ⟨.fflush, by decide⟩,
    (writeSavedLists_atomic plainStdio _ _ _ _ rfl).2 ?_⟩
  rintro ⟨call, hcall⟩
  cases call <;> revert hcall <;> decide

end Fetchmail.Uid
