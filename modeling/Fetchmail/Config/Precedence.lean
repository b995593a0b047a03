import Fetchmail.Config.LoadParams
import Mathlib.Data.List.Forall2

/-!
# Option Precedence

What a user gives on the command line is to win over the server entry, that over the
defaults entry, and that over what is built in. `load_params` merges the records field by
field. This goes wrong for the fields that `optmerge` leaves out (`esmtpname`,
`esmtppassword`, `aka`), for the numbers whose zero is a value of its own (`timeout`,
`interval`, the count of `envelope`, `auth any`, `bad-header reject`), for a list that is
given on the command line and below, which comes out as both, and for `no tracepolls`, which
`DEFAULT` does not decode.
-/

namespace Fetchmail.Config

open Lib.Layers

/-! ## What is wanted -/

/-- An option. -/
inductive Opt where
  | str (o : StrOpt)
  | num (o : NumOpt)
  | flag (o : FlagOpt)
  | list (o : ListOpt)
  deriving DecidableEq, Repr

/-- A place where nothing is given. -/
def Settings.nothing : Settings where
  str _ := none
  num _ := none
  flag _ := none
  list _ := []
  disabled := by simp
  switches := by simp
  protocols := by simp

/-- What a number of `struct query` stands for. -/
def NumOpt.value (o : NumOpt) (n : Int) : Int := if o.isNumValue then numValueOut n else n

section

variable (r : Run) (c : CmdLine) (e d : Settings)

/-- The string that has precedence. -/
def wantedStr (o : StrOpt) : Option Str :=
  given [c.str o, e.str o, d.str o, (defOpts r).str o]

/-- The number that has precedence. -/
def wantedNum (o : NumOpt) : Int :=
  (given [c.num o, e.num o, d.num o]).getD ((defOpts r).num o)

/-- The flag that has precedence. -/
def wantedFlag (o : FlagOpt) : Bool :=
  (given [c.flag o, e.flag o, d.flag o]).getD (o.dflt (wantedStr r c e d .mda) != 0)

/-- The list that has precedence. -/
def wantedList (o : ListOpt) : List Node :=
  firstSet [] [c.list o, e.list o, d.list o, o.dflt r (wantedNum r c e d .protocol)]

/-- The record has the value of an option that has precedence. -/
def Obeys (q : Query) : Opt → Prop
  | .str o => q.str o = wantedStr r c e d o
  | .num o => o.value (q.num o) = o.value (wantedNum r c e d o)
  | .flag o => q.flag o ≠ 0 ↔ wantedFlag r c e d o = true
  | .list o => q.list o = wantedList r c e d o

/-- What is given for an option is not lost. -/
def Kept : Opt → Prop
  -- a field that is merged, or a value that needs no merging
  | .str o => o.merged = true ∨ e.str o ≠ none ∨ d.str o = none ∧ (defOpts r).str o = none
  -- a zero, or a timeout of -1, does not stand
  | .num o => o.isNumValue = true ∨
      Stands 0 id ((defOpts r).num o) [c.num o, e.num o, d.num o] ∧
        (o = .timeout → given [c.num o, e.num o, d.num o] ≠ some (-1))
  | .flag o => o = .tracepolls → given [c.flag o, e.flag o, d.flag o] ≠ some false
  | .list o =>
      if o.merged then c.list o = [] ∨ e.list o = [] ∧ d.list o = []
      else e.list o ≠ [] ∨ d.list o = []

end

/-! ## Merging -/

theorem appendStrList_eq (idl nidl : List Node) : appendStrList idl nidl = idl ++ nidl := by
  induction idl with
  | nil => cases nidl <;> rfl
  | cons node idl ih =>
    cases nidl with
    | nil => cases idl <;> simp [appendStrList]
    | cons node' nidl =>
      cases idl with
      | nil => rfl
      | cons node'' idl => simpa [appendStrList] using ih

theorem flagMerge_fill {α : Type} [DecidableEq α] (unset h2 h1 : α) :
    flagMerge unset false h2 h1 = fill unset h2 h1 := by
  simp [flagMerge, fill]

theorem flagMerge_force {α : Type} [DecidableEq α] (unset h2 h1 : α) :
    flagMerge unset true h2 h1 = fill unset h1 h2 := by
  by_cases h : h1 = unset <;> simp [flagMerge, fill, h]

theorem listMerge_fill (dstl srcl : List Node) : listMerge false dstl srcl = fill [] dstl srcl := by
  cases dstl <;> simp [listMerge, fill, appendStrList_eq]

/-- Forced, the lists are joined. -/
theorem listMerge_force (dstl srcl : List Node) : listMerge true dstl srcl = dstl ++ srcl := by
  cases srcl <;> simp [listMerge, appendStrList_eq]

/-- The three merges find the first value that is set. -/
theorem merges_eq_firstSet {α : Type} [DecidableEq α] (unset c e d b : α) :
    flagMerge unset true (flagMerge unset false (flagMerge unset false e d) b) c =
      firstSet unset [c, e, d, b] := by
  have hlast : fill unset b unset = b := by
    by_cases h : b = unset <;> simp [fill, h]
  simp only [flagMerge_force, flagMerge_fill, firstSet, hlast, fill_assoc]

/-- The record of an entry after all merges. -/
def mergedOpts (r : Run) (c : CmdLine) (e d : Settings) : Query :=
  optmerge (optmerge (optmerge e.current d.current false) (defOpts r) false) c.cmdOpts true

section

variable (r : Run) (c : CmdLine) (e d : Settings)

theorem mergedOpts_num (o : NumOpt) :
    (mergedOpts r c e d).num o = firstSet 0 [encode 0 o.cmdEnc (c.num o),
      encode 0 o.enc (e.num o), encode 0 o.enc (d.num o), (defOpts r).num o] :=
  merges_eq_firstSet 0 _ _ _ _

theorem mergedOpts_flag (o : FlagOpt) :
    (mergedOpts r c e d).flag o =
      firstSet 0 ([c.flag o, e.flag o, d.flag o].map (encode 0 o.enc) ++ [0]) :=
  merges_eq_firstSet 0 _ _ _ _

theorem mergedOpts_str {o : StrOpt} (h : o.merged = true) :
    (mergedOpts r c e d).str o = wantedStr r c e d o := by
  have hmerged : (mergedOpts r c e d).str o =
      firstSet none [c.str o, e.str o, d.str o, (defOpts r).str o] := by
    simp only [mergedOpts, optmerge, h, if_true]
    exact merges_eq_firstSet none _ _ _ _
  rw [hmerged, wantedStr]
  cases c.str o <;> cases e.str o <;> cases d.str o <;> cases (defOpts r).str o <;> rfl

/-- Both lists, where one is given on the command line. -/
theorem mergedOpts_list {o : ListOpt} (h : o.merged = true) :
    (mergedOpts r c e d).list o = fill [] (e.list o) (d.list o) ++ c.list o := by
  simp only [mergedOpts, optmerge, h, if_true, listMerge_fill, listMerge_force]
  have hnone : fill [] (fill [] (e.list o) (d.list o)) ((defOpts r).list o) =
      fill [] (e.list o) (d.list o) := by
    cases e.list o <;> cases d.list o <;> rfl
  rw [show e.current.list o = e.list o from rfl, show d.current.list o = d.list o from rfl, hnone]
  rfl

/-! ## Each kind of option -/

theorem obeys_str (o : StrOpt) :
    (setDefaults r (mergedOpts r c e d)).str o = wantedStr r c e d o ↔ Kept r c e d (.str o) := by
  cases hm : o.merged with
  | true => simp [setDefaults, Kept, hm, mergedOpts_str r c e d hm]
  | false =>
    have hcmd : c.str o = none := by
      by_contra hgiven
      have hon := c.strs o hgiven
      cases o <;> simp_all [StrOpt.merged, StrOpt.onCmdline]
    have hown : (mergedOpts r c e d).str o = e.str o := by
      simp [mergedOpts, optmerge, hm, Settings.current]
    simp only [setDefaults, Kept, hm, hown, wantedStr, hcmd, given_none, Bool.false_eq_true,
      false_or]
    cases e.str o <;> cases d.str o <;> cases (defOpts r).str o <;> simp

/-- A value other than zero, whatever stands for it. -/
theorem numValueIn_ne (n : Int) : numValueIn n ≠ 0 := by
  unfold numValueIn
  split <;> omega

theorem numValueOut_in (n : Int) : numValueOut (numValueIn n) = numValueOut n := by
  unfold numValueIn
  split
  · next h => rw [h]; rfl
  · rfl

theorem obeys_numValue {o : NumOpt} (h : o.isNumValue = true) :
    o.value ((setDefaults r (mergedOpts r c e d)).num o) = o.value (wantedNum r c e d o) := by
  have hne : o ≠ .timeout := by
    rintro rfl
    cases h
  have henc : o.enc = numValueIn ∧ o.cmdEnc = numValueIn := by
    constructor <;> funext n <;> simp [NumOpt.enc, NumOpt.cmdEnc, h]
  have hstands := stands_of_ne 0 numValueIn ((defOpts r).num o)
    fun n (_ : some n ∈ [c.num o, e.num o, d.num o]) => numValueIn_ne n
  have hmerged := (firstSet_encode_iff 0 numValueIn _ _).mpr hstands
  simp only [setDefaults, hne, false_and, if_false, mergedOpts_num, henc.1, henc.2]
  simp only [List.map_cons, List.map_nil, List.cons_append, List.nil_append] at hmerged
  rw [hmerged, wantedNum]
  simp only [NumOpt.value, h, if_true]
  cases given [c.num o, e.num o, d.num o] with
  | none => rfl
  | some n => exact numValueOut_in n

/-- The numbers that are stored as they are. -/
theorem obeys_plain {o : NumOpt} (h : o.isNumValue = false) (hne : o ≠ .timeout) :
    (setDefaults r (mergedOpts r c e d)).num o = wantedNum r c e d o ↔
      Stands 0 id ((defOpts r).num o) [c.num o, e.num o, d.num o] := by
  have henc : o.enc = id ∧ o.cmdEnc = id := by
    constructor <;> funext n <;> simp [NumOpt.enc, NumOpt.cmdEnc, h, hne]
  have hmerged := firstSet_encode_iff 0 id ((defOpts r).num o) [c.num o, e.num o, d.num o]
  rw [Option.map_id] at hmerged
  simp only [setDefaults, hne, false_and, if_false, mergedOpts_num, henc.1, henc.2, wantedNum]
  exact hmerged

/-- Any timeout other than 0 and -1 is kept; these two become the built-in one. -/
theorem obeys_timeout :
    (setDefaults r (mergedOpts r c e d)).num .timeout = wantedNum r c e d .timeout ↔
      Stands 0 id clientTimeout [c.num .timeout, e.num .timeout, d.num .timeout] ∧
        given [c.num .timeout, e.num .timeout, d.num .timeout] ≠ some (-1) := by
  have hmerged := mergedOpts_num r c e d .timeout
  have henc : NumOpt.enc .timeout = id ∧ NumOpt.cmdEnc .timeout = numValueIn := by
    constructor <;> funext n <;> rfl
  have hbuiltin : (defOpts r).num .timeout = clientTimeout := rfl
  rw [henc.1, henc.2, hbuiltin] at hmerged
  simp only [setDefaults, true_and, wantedNum, hbuiltin, hmerged]
  -- the value is 300 where it would be -1, and never 0
  cases c.num .timeout <;> cases e.num .timeout <;> cases d.num .timeout <;>
    simp [firstSet, fill, numValueIn, Stands, clientTimeout] <;> split_ifs <;> simp_all

theorem obeys_num (o : NumOpt) :
    o.value ((setDefaults r (mergedOpts r c e d)).num o) = o.value (wantedNum r c e d o) ↔
      Kept r c e d (.num o) := by
  cases hnum : o.isNumValue with
  | true => simp [Kept, hnum, obeys_numValue r c e d hnum]
  | false =>
    simp only [NumOpt.value, Kept, hnum, Bool.false_eq_true, if_false, false_or]
    by_cases htimeout : o = .timeout
    · subst htimeout
      exact (obeys_timeout r c e d).trans (by simp [defOpts])
    · simp [htimeout, obeys_plain r c e d hnum htimeout]

/-- No flag that is given is stored as zero. -/
theorem mergedOpts_flag_given (o : FlagOpt) :
    (mergedOpts r c e d).flag o =
      ((given [c.flag o, e.flag o, d.flag o]).map o.enc).getD 0 := by
  rw [mergedOpts_flag]
  refine firstSet_encode 0 o.enc 0 fun b hb => ?_
  unfold FlagOpt.enc
  cases hswitch : o.isSwitch with
  | false => cases b <;> simp [flagTrue, flagFalse]
  | true =>
    -- a switch is only ever turned on
    have hon : b = true := by
      cases b with
      | true => rfl
      | false =>
        simp only [List.mem_cons, List.not_mem_nil, or_false] at hb
        rcases hb with hb | hb | hb
        · exact absurd hb.symm (c.switches o hswitch)
        · exact absurd hb.symm (e.switches o hswitch)
        · exact absurd hb.symm (d.switches o hswitch)
    simp [hon]

theorem obeys_flag (o : FlagOpt) :
    ((setDefaults r (mergedOpts r c e d)).flag o ≠ 0 ↔ wantedFlag r c e d o = true) ↔
      Kept r c e d (.flag o) := by
  have hmda : (mergedOpts r c e d).str .mda = wantedStr r c e d .mda := mergedOpts_str r c e d rfl
  simp only [setDefaults, hmda, mergedOpts_flag_given, wantedFlag, Kept]
  cases hdefaulted : o.defaulted with
  | true =>
    have hne : o ≠ .tracepolls := by
      rintro rfl
      cases hdefaulted
    have hswitch : o.isSwitch = false := by cases o <;> first | rfl | cases hdefaulted
    cases hgiven : given [c.flag o, e.flag o, d.flag o] with
    | none => simp [hne, default, flagTrue, flagFalse]
    | some b => cases b <;> simp [hne, default, flagTrue, flagFalse, FlagOpt.enc, hswitch]
  | false =>
    have hdflt : ∀ mda, o.dflt mda = 0 := by
      intro mda
      cases o <;> first | rfl | cases hdefaulted
    cases hgiven : given [c.flag o, e.flag o, d.flag o] with
    | none => simp [hdflt]
    | some b =>
      cases b with
      | true =>
        have henc : o.enc true ≠ 0 := by
          unfold FlagOpt.enc
          split <;> simp [flagTrue]
        simpa [hdflt] using henc
      | false =>
        -- `no tracepolls` is stored as 1, and a switch cannot be turned off
        cases hswitch : o.isSwitch with
        | false =>
          have htrace : o = .tracepolls := by
            cases o <;> first | rfl | cases hdefaulted; done | cases hswitch
          simp [FlagOpt.enc, FlagOpt.isSwitch, flagFalse, htrace]
        | true =>
          have hne : o ≠ .tracepolls := by
            rintro rfl
            cases hswitch
          simp [FlagOpt.enc, hswitch, hne]

/-- The protocol that is polled is the one that has precedence. -/
theorem mergedOpts_protocol :
    (mergedOpts r c e d).num .protocol = wantedNum r c e d .protocol := by
  refine (obeys_plain r c e d (o := .protocol) rfl (by simp)).mpr ?_
  refine stands_of_ne 0 id _ fun n hn => ?_
  rintro rfl
  simp only [List.mem_cons, List.not_mem_nil, or_false] at hn
  rcases hn with hn | hn | hn
  · exact c.protocols hn.symm
  · exact e.protocols hn.symm
  · exact d.protocols hn.symm

theorem obeys_list (o : ListOpt) :
    (setDefaults r (mergedOpts r c e d)).list o = wantedList r c e d o ↔
      Kept r c e d (.list o) := by
  have hprotocol := mergedOpts_protocol r c e d
  have hdflt : fill [] (o.dflt r (wantedNum r c e d .protocol)) [] =
      o.dflt r (wantedNum r c e d .protocol) := by
    cases o.dflt r (wantedNum r c e d .protocol) <;> rfl
  simp only [setDefaults, wantedList, firstSet, Kept, hprotocol, hdflt]
  -- a list that is merged has the entry behind the command line, another one is not on it at all
  cases hm : o.merged with
  | true =>
    rw [mergedOpts_list r c e d hm]
    have hlower : fill [] (e.list o) (d.list o) = [] ↔ e.list o = [] ∧ d.list o = [] := by
      cases e.list o <;> simp [fill]
    cases hcmd : c.list o with
    | nil => cases e.list o <;> cases d.list o <;> simp [fill]
    | cons node nodes =>
      simpa [fill] using hlower
  | false =>
    have hcmd : c.list o = [] := by
      by_contra hgiven
      have hon := c.lists o hgiven
      cases o <;> simp_all [ListOpt.merged, ListOpt.onCmdline]
    have hown : (mergedOpts r c e d).list o = e.list o := by
      simp [mergedOpts, optmerge, hm, Settings.current]
    -- lists that are not merged have no default
    have hnone : o.dflt r (wantedNum r c e d .protocol) = [] := by
      cases o <;> first | rfl | cases hm
    rw [hown, hcmd, hnone]
    cases e.list o <;> cases d.list o <;> simp [fill]

end

/-! ## The lists of records -/

/-- The options of a defaults record, if there is one. -/
def defaultsOf (defaults : Option Settings) : Settings := defaults.getD .nothing

/-- A defaults record without options is as good as none. -/
theorem optmerge_nothing (q : Query) : optmerge q Settings.nothing.current false = q := by
  have hnode : ∀ l : List Node, fill [] l [] = l := fun l => by cases l <;> rfl
  have hstr : ∀ s : Option Str, fill none s none = s := fun s => by cases s <;> rfl
  have hint : ∀ n : Int, fill 0 n 0 = n := fun n => by by_cases h : n = 0 <;> simp [fill, h]
  have hnat : ∀ n : Nat, fill 0 n 0 = n := fun n => by by_cases h : n = 0 <;> simp [fill, h]
  simp [optmerge, flagMerge_fill, listMerge_fill, Settings.nothing, Settings.current, hnode, hstr,
    hint, hnat]

/-- The record of an entry is loaded with the defaults merged in. -/
theorem loadParams_querylist (r : Run) (cmdOpts : Query) (defaults : Option Settings)
    (entries : List Entry) :
    loadParams r cmdOpts (querylist defaults entries) = some (entries.map fun e =>
      loadCtl r cmdOpts { e.ctl with
        opts := optmerge e.current (defaultsOf defaults).current false }) := by
  have hmerged : mergeDefaults (querylist defaults entries) = entries.map fun e =>
      { e.ctl with opts := optmerge e.current (defaultsOf defaults).current false } := by
    cases defaults with
    | some d =>
      simp only [querylist, Option.toList_some, List.map_cons, List.map_nil, List.cons_append,
        List.nil_append, mergeDefaults, if_true, List.map_map]
      rfl
    -- without an entry for defaults nothing is merged
    | none =>
      have hctl : entries.map (fun e => { e.ctl with
          opts := optmerge e.current (defaultsOf none).current false }) = entries.map Entry.ctl := by
        refine List.map_congr_left fun e _ => ?_
        simp [defaultsOf, optmerge_nothing, Entry.ctl]
      rw [hctl]
      cases entries with
      | nil => rfl
      | cons e entries => simp [querylist, mergeDefaults, Entry.ctl, e.named]
  -- a second entry of that name would be refused
  have hnames : (entries.map fun e => ({ e.ctl with
      opts := optmerge e.current (defaultsOf defaults).current false } : Ctl)).tail.any
        (·.pollname = "defaults") = false := by
    rw [List.any_eq_false]
    intro ctl hctl
    obtain ⟨e, -, rfl⟩ := List.mem_map.mp (List.mem_of_mem_tail hctl)
    exact fun h => e.named (of_decide_eq_true h)
  simp only [loadParams, hmerged, hnames, Bool.false_eq_true, if_false, List.map_map]
  rfl

/-- For every entry that is polled or dumped, an option has the value that has precedence if
and only if what is given for it is not lost. -/
theorem loadParams_obeys_iff (r : Run) (c : CmdLine) (defaults : Option Settings)
    (entries : List Entry) :
    ∃ ctls, loadParams r c.cmdOpts (querylist defaults entries) = some ctls ∧
      List.Forall₂ (fun e ctl => (r.configdump || e.active) = true → ∀ o,
        Obeys r c e.toSettings (defaultsOf defaults) ctl.opts o ↔
          Kept r c e.toSettings (defaultsOf defaults) o) entries ctls := by
  refine ⟨_, loadParams_querylist r c.cmdOpts defaults entries, ?_⟩
  rw [List.forall₂_map_right_iff, List.forall₂_same]
  intro e _ hpolled o
  have hopts : (loadCtl r c.cmdOpts { e.ctl with
      opts := optmerge e.current (defaultsOf defaults).current false }).opts =
        setDefaults r (mergedOpts r c e.toSettings (defaultsOf defaults)) := by
    simp only [loadCtl, Entry.ctl, hpolled, if_true]
    rfl
  rw [hopts]
  cases o with
  | str o => exact obeys_str r c e.toSettings (defaultsOf defaults) o
  | num o => exact obeys_num r c e.toSettings (defaultsOf defaults) o
  | flag o => exact obeys_flag r c e.toSettings (defaultsOf defaults) o
  | list o => exact obeys_list r c e.toSettings (defaultsOf defaults) o

/-! ## A folder on the command line -/

/-- `user u` on a Unix account of the same name. -/
def aRun : Run := ⟨"u", "localhost", false⟩

/-- Options that give a folder. -/
def folder (name : String) : Settings where
  str _ := none
  num _ := none
  flag _ := none
  list o := if o = .mailboxes then [.ofId name] else []
  disabled := by simp
  switches := by simp
  protocols := by simp

/-- `fetchmail -r work` -/
def folderWork : CmdLine where
  toSettings := folder "work"
  strs := by simp [folder]
  nums := by simp [folder]
  flags := by simp [folder]
  lists o h := by
    by_cases ho : o = .mailboxes
    · rw [ho]
      rfl
    · simp [folder, ho] at h

/-- `poll server folder home` -/
def pollHome : Entry where
  toSettings := folder "home"
  pollname := "server"
  active := true
  named := by simp

/-- Both folders are polled, instead of `work` alone. -/
theorem folders_joined :
    ∃ ctl, loadParams aRun folderWork.cmdOpts (querylist none [pollHome]) = some [ctl] ∧
      ctl.opts.list .mailboxes = [.ofId "home", .ofId "work"] ∧
      ¬ Obeys aRun folderWork pollHome.toSettings (defaultsOf none) ctl.opts (.list .mailboxes) := by
  refine ⟨_, rfl, by decide, ?_⟩
  change ¬ (_ = wantedList aRun folderWork pollHome.toSettings (defaultsOf none) .mailboxes)
  decide

end Fetchmail.Config
