import Fetchmail.Config.Dump

/-!
# The Configuration Dump is a Literal

What `dump_config` prints is the dictionary that it should be, exactly if the first record is that
of a server entry, the later server entries lie above it in memory, and no string or comment is
broken. The number of braces shows the first two, because a literal has as many of them as its value
has dictionaries.
-/

namespace Fetchmail.Config.Dump

open Fetchmail.Lib Fetchmail.Lib.Literals

variable {isprint : UInt8 → Bool} {o : Out} {ts : List Tok} {b : Bracket} {m : Member}
  {e : String × Member} {es : List (String × Member)} {ctl l u : Record} {recs rs us : List Record}
  {s : String} {idp : Node} {ids : List Node} {runp : Runctl} {a querylist : Nat}

/-! ## The tokens -/

/-- The tokens that have been printed. -/
def Out.tokens (o : Out) : List Tok := Dump.tokens o.text

@[simp] theorem tokens_put : (o.put ts).tokens = o.tokens ++ ts := by
  simp [Out.tokens, Out.put, tokens, List.filterMap_append, List.filterMap_map]

@[simp] theorem tokens_white : o.white.tokens = o.tokens := by
  simp [Out.tokens, Out.white, tokens]

@[simp] theorem tokens_indent_none : (indent o none).tokens = o.tokens := tokens_white

@[simp] theorem tokens_indent_opening :
    (indent o (some (.opening b))).tokens = o.tokens ++ [.opening b] := by
  change Out.tokens (Out.put (if b = .square then o else o.white) [.opening b]) = _
  split <;> simp

@[simp] theorem tokens_indent_closing :
    (indent o (some (.closing b))).tokens = o.tokens ++ [.closing b] := by
  rw [indent, tokens_put, tokens_white]
  rfl

@[simp] theorem tokens_dumpMember :
    (dumpMember isprint o e).tokens = o.tokens ++ entryText isprint e := by
  rw [dumpMember, tokens_put, tokens_indent_none]

@[simp] theorem tokens_dumpMembers (es : List (String × Member)) :
    (es.foldl (dumpMember isprint) o).tokens = o.tokens ++ es.flatMap (entryText isprint) := by
  induction es generalizing o with
  | nil => simp
  | cons e es ih => rw [List.foldl_cons, ih, tokens_dumpMember, List.flatMap_cons, List.append_assoc]

/-- Where a server entry begins. -/
def serverOpening (isprint : UInt8 → Bool) (ctl : Record) : List Tok :=
  .gap (.comment (cText ctl.ctl.pollname)) :: .opening .brace ::
    (serverMembers ctl.ctl).flatMap (entryText isprint) ++
    [.atom (.lit "users"), .colon, .opening .square]

/-- A user. -/
def userText (isprint : UInt8 → Bool) (ctl : Record) : List Tok :=
  .opening .brace :: (userMembers ctl.ctl).flatMap (entryText isprint) ++ [.closing .brace]

/-- The end of the server entry before. -/
def serverEnd (querylist : Nat) (ctl : Record) : List Tok :=
  if querylist < ctl.addr then [.closing .square, .closing .brace, .comma] else []

/-- What is printed for a record. -/
def recordText (isprint : UInt8 → Bool) (querylist : Nat) (ctl : Record) : List Tok :=
  (if ctl.lead = none then serverEnd querylist ctl ++ serverOpening isprint ctl else []) ++
    userText isprint ctl ++ [.comma]

theorem tokens_dumpServer : (dumpServer isprint querylist o ctl).tokens =
    o.tokens ++ serverEnd querylist ctl ++ serverOpening isprint ctl := by
  rw [dumpServer, serverEnd]
  split <;> simp [serverOpening]

theorem tokens_dumpRecord : (dumpRecord isprint querylist o ctl).tokens =
    o.tokens ++ recordText isprint querylist ctl := by
  rw [dumpRecord, recordText]
  split <;> simp [tokens_dumpServer, userText]

theorem tokens_dumpRecords (recs : List Record) :
    (recs.foldl (dumpRecord isprint querylist) o).tokens =
      o.tokens ++ recs.flatMap (recordText isprint querylist) := by
  induction recs generalizing o with
  | nil => simp
  | cons ctl recs ih =>
    rw [List.foldl_cons, ih, tokens_dumpRecord, List.flatMap_cons, List.append_assoc]

/-- What is printed for the key `servers`. -/
def serversText (isprint : UInt8 → Bool) : List Record → List Tok
  | [] => [.atom (.lit "servers"), .colon, .opening .square, .closing .square]
  | querylist :: ctls =>
    .gap (.comment (Bytes.lit " List of server entries begins here")) ::
      .atom (.lit "servers") :: .colon :: (.opening .square ::
        ((querylist :: ctls).flatMap (recordText isprint querylist.addr) ++
          [.closing .square, .closing .brace]) ++ [.closing .square])

theorem tokens_dumpServers (recs : List Record) :
    (dumpServers isprint o recs).tokens = o.tokens ++ serversText isprint recs := by
  cases recs with
  | nil => simp [dumpServers, serversText, Out.tokens, tokens, Out.put]
  | cons l recs =>
    rw [dumpServers, serversText, tokens_indent_closing, tokens_indent_closing,
      tokens_indent_closing, tokens_dumpRecords]
    simp

theorem tokens_dumpConfig (recs : List Record) : tokens (dumpConfig isprint runp recs) =
    .opening .brace :: (runp.members.flatMap (entryText isprint) ++ serversText isprint recs) ++
      [.closing .brace] := by
  have hstart : (⟨0, []⟩ : Out).tokens = [] := rfl
  change Out.tokens (indent _ _) = _
  simp [tokens_dumpServers, hstart]

/-! ## Strings -/

/-- `visbuf` can write the string. -/
def Writable (isprint : UInt8 → Bool) (s : String) : Prop :=
  ∀ c ∈ cText s, isprint c = true ∨ c < 128

/-- What `namebuf` holds of the string does not end within an escape. -/
def Uncut (isprint : UInt8 → Bool) (s : String) : Prop :=
  ∃ out, visText isprint (cText s) = some out ∧ (pyString (out.take usernamelen)).isSome = true

theorem nul_notMem_cText : Bytes.nul ∉ cText s := fun h => by
  simpa using List.mem_takeWhile_imp h

theorem visChar_isSome {c : UInt8} :
    (visChar isprint c).isSome = true ↔ isprint c = true ∨ c < 128 := by
  unfold visChar
  split
  · next h => simp [h]
  split
  · next h => simp [h]
  split
  · next h =>
    refine iff_of_true rfl (h.imp_right ?_)
    rintro rfl
    decide
  · next h =>
    rw [not_or] at h
    split
    · next d hd =>
      refine iff_of_true rfl (.inr ?_)
      have hle := UInt8.le_iff_toNat_le.mp (visLetter_spec hd).1.2
      exact UInt8.lt_iff_toNat_lt.mpr (Nat.lt_of_le_of_lt hle (by decide))
    · split
      · next hlt => exact iff_of_true rfl (.inr hlt)
      · next hge => exact iff_of_false Bool.false_ne_true (not_or.mpr ⟨h.1, hge⟩)

theorem visText_isSome {s : Bytes} :
    (visText isprint s).isSome = true ↔ ∀ c ∈ s, isprint c = true ∨ c < 128 := by
  induction s with
  | nil => exact iff_of_true rfl fun c hc => absurd hc List.not_mem_nil
  | cons c s ih =>
    rw [visText_cons, List.forall_mem_cons, ← ih, ← visChar_isSome]
    cases visChar isprint c <;> cases visText isprint s <;> simp

/-- The string ends where it should, if `visbuf` writes one. -/
theorem quoted_ok (hctrl : Controls isprint) :
    Piece.ok (.str (visText isprint (cText s))) = true ↔ Writable isprint s := by
  rw [Writable, ← visText_isSome]
  cases htext : visText isprint (cText s) with
  | none => exact iff_of_false Bool.false_ne_true Bool.false_ne_true
  | some out =>
    obtain ⟨-, -, hreads⟩ := visText_spec hctrl nul_notMem_cText htext
    have hread := hreads []
    rw [List.append_nil] at hread
    refine iff_of_true ?_ rfl
    rw [Piece.ok, hread]
    rfl

theorem namebuf_ok {id : Option String} :
    Piece.ok (.str (id.bind fun s => (visText isprint (cText s)).map (·.take usernamelen))) = true ↔
      ∃ s, id = some s ∧ Uncut isprint s := by
  cases id with
  | none => simp [Piece.ok]
  | some s =>
    rw [Option.bind_some]
    cases htext : visText isprint (cText s) <;> simp [Piece.ok, Uncut, htext]

/-! ## Members -/

/-- What is printed for a member is not broken. -/
def Member.Sound (isprint : UInt8 → Bool) : Member → Prop
  | .str member => ∀ s ∈ member, Writable isprint s
  | .list l => ∀ idp ∈ l, ∀ s ∈ idp.id, Writable isprint s
  | .names l _ => ∀ idp ∈ l, (∃ s, idp.id = some s ∧ Uncut isprint s) ∧
      ∀ s ∈ idp.id2, Writable isprint s
  | _ => True

theorem idText_sound (hctrl : Controls isprint) (l : List Node)
    (h : ∀ t ∈ idText isprint l, t.Sound Piece.ok) :
    ∀ idp ∈ l, ∀ s ∈ idp.id, Writable isprint s := by
  induction l with
  | nil => exact fun idp hidp => absurd hidp List.not_mem_nil
  | cons idp rest ih =>
    rw [idText] at h
    refine List.forall_mem_cons.mpr ⟨?_, ih fun t ht => h t (List.mem_append_right _ ht)⟩
    intro s hs
    rw [Option.mem_def] at hs
    rw [hs] at h
    exact (quoted_ok hctrl).mp (h _ List.mem_cons_self)

theorem nameText_sound (hctrl : Controls isprint) (l : List Node)
    (h : ∀ t ∈ nameText isprint l, t.Sound Piece.ok) :
    ∀ idp ∈ l, (∃ s, idp.id = some s ∧ Uncut isprint s) ∧
      ∀ s ∈ idp.id2, Writable isprint s := by
  induction l with
  | nil => exact fun idp hidp => absurd hidp List.not_mem_nil
  | cons idp rest ih =>
    rw [nameText] at h
    refine List.forall_mem_cons.mpr ⟨?_, ih fun t ht =>
      h t (List.mem_append_right _ (List.mem_append_right _ ht))⟩
    have hnode : ∀ t ∈ nodeText isprint idp, t.Sound Piece.ok :=
      fun t ht => h t (List.mem_append_left _ ht)
    rw [nodeText] at hnode
    cases hid2 : idp.id2 with
    | none =>
      rw [hid2] at hnode
      exact ⟨namebuf_ok.mp (hnode _ List.mem_cons_self), fun s hs => by cases hs⟩
    | some id2 =>
      rw [hid2] at hnode
      refine ⟨namebuf_ok.mp (hnode (namebuf isprint idp.id) (by simp)), ?_⟩
      rintro s ⟨⟩
      exact (quoted_ok hctrl).mp (hnode (quoted isprint id2) (by simp))

theorem Member.text_sound (hctrl : Controls isprint)
    (h : ∀ t ∈ m.text isprint, t.Sound Piece.ok) : m.Sound isprint := by
  cases m with
  | str member =>
    cases member with
    | none => exact fun s hs => by cases hs
    | some s =>
      rintro s ⟨⟩
      exact (quoted_ok hctrl).mp (h _ List.mem_cons_self)
  | list l =>
    exact idText_sound hctrl l fun t ht => h t (by simp [Member.text, ht])
  | names l wildcard =>
    exact nameText_sound hctrl l fun t ht => h t (by simp [Member.text, ht])
  | num | bool | nums => trivial

theorem ends_idText (hctrl : Controls isprint) (l : List Node)
    (h : ∀ idp ∈ l, ∀ s ∈ idp.id, Writable isprint s) :
    Ends Piece.ok .square (idText isprint l)
      ((l.filterMap Node.id).map fun s => .atom (.str (visText isprint (cText s)))) := by
  induction l with
  | nil => exact fills_nil.ends
  | cons idp rest ih =>
    rw [List.forall_mem_cons] at h
    rw [idText]
    cases hid : idp.id with
    | none =>
      rw [List.filterMap_cons_none hid]
      exact ih h.2
    | some s =>
      have hspells := spells_atom ((quoted_ok hctrl).mpr (h.1 s hid))
      rw [List.filterMap_cons_some hid, List.map_cons]
      cases rest with
      | nil => exact hspells.ends (by decide)
      | cons idp' rest => exact (hspells.item (by decide)).append_ends (ih h.2)

theorem spells_name (hctrl : Controls isprint) (hid : ∃ s, idp.id = some s ∧ Uncut isprint s)
    (hid2 : ∀ s ∈ idp.id2, Writable isprint s) :
    Spells Piece.ok (nodeText isprint idp) (nameValue isprint idp) := by
  have hname := spells_atom (namebuf_ok.mpr hid)
  rw [nameValue, nodeText]
  cases h : idp.id2 with
  | none => exact hname
  | some id2 =>
    have hpair : Spells Piece.ok [quoted isprint id2] _ :=
      spells_atom ((quoted_ok hctrl).mpr (hid2 id2 h))
    exact ((hname.item (by decide)).append_ends (hpair.ends (by decide))).spells
      (.inr (Nat.le_refl 2))

theorem ends_nameText (hctrl : Controls isprint) (wildcard : Bool) (l : List Node) (hl : l ≠ [])
    (h : ∀ idp ∈ l, (∃ s, idp.id = some s ∧ Uncut isprint s) ∧
      ∀ s ∈ idp.id2, Writable isprint s) :
    Ends Piece.ok .square
      (nameText isprint l ++ if wildcard then [.comma, .atom (.lit "*")] else [])
      (l.map (nameValue isprint) ++ if wildcard then [.atom (.lit "*")] else []) := by
  induction l with
  | nil => exact absurd rfl hl
  | cons idp rest ih =>
    rw [List.forall_mem_cons] at h
    have hspells := spells_name hctrl h.1.1 h.1.2
    rw [nameText, List.map_cons]
    cases rest with
    | nil =>
      have hstar : Spells Piece.ok [.atom (.lit "*")] (.atom (.lit "*")) := spells_atom rfl
      cases wildcard with
      | false =>
        have hends := hspells.ends (by decide : Bracket.square ≠ .brace)
        simpa [nameText] using hends
      | true =>
        have hends := (hspells.item (by decide : Bracket.square ≠ .brace)).append_ends
          (hstar.ends (by decide))
        simpa [nameText] using hends
    | cons idp' rest =>
      have hends := (hspells.item (by decide)).append_ends (ih (List.cons_ne_nil _ _) h.2)
      simpa [nameText] using hends

/-- `localnames` is set by `load_params` at the latest. -/
def Member.Named : Member → Prop
  | .names l _ => l ≠ []
  | _ => True

theorem Member.spells (hctrl : Controls isprint) (hnamed : m.Named) (h : m.Sound isprint) :
    Spells Piece.ok (m.text isprint) (m.value isprint) := by
  cases m with
  | str member =>
    cases member with
    | none => exact spells_atom rfl
    | some s => exact spells_atom ((quoted_ok hctrl).mpr (h s rfl))
  | list l => exact (ends_idText hctrl l h).spells (.inl (by decide))
  | names l wildcard => exact (ends_nameText hctrl wildcard l hnamed h).spells (.inl (by decide))
  | num | bool | nums => exact spells_atom rfl

/-- The keys of a dictionary. -/
theorem fills_entries (hctrl : Controls isprint) (es : List (String × Member))
    (hnamed : ∀ e ∈ es, e.2.Named) (h : ∀ e ∈ es, e.2.Sound isprint) :
    Fills Piece.ok .brace (es.flatMap (entryText isprint)) (es.map (entryValue isprint)) :=
  .flatMap fun e he => (e.2.spells hctrl (hnamed e he) (h e he)).member rfl

/-! ## Braces -/

/-- No dictionary is printed for a member. -/
theorem Member.value_braces : (m.value isprint).braces = 0 := by
  cases m with
  | str member => cases member <;> rfl
  | list l =>
    rw [Member.value, Value.braces, bracesAll_eq]
    simp [Function.comp_def, Value.braces]
  | names l wildcard =>
    have hname : ∀ idp, (nameValue isprint idp).braces = 0 := by
      intro idp
      rw [nameValue]
      split <;> simp [Value.braces, bracesAll]
    rw [Member.value, Value.braces, bracesAll_append, bracesAll_eq, List.map_map]
    cases wildcard <;> simp [Function.comp_def, hname, bracesAll, Value.braces]
  | num | bool | nums => rfl

theorem bracesAll_entries (es : List (String × Member)) :
    bracesAll (es.map (entryValue isprint)) = 0 := by
  rw [bracesAll_eq]
  simp [Function.comp_def, entryValue, Value.braces, Member.value_braces]

theorem userValue_braces : (userValue isprint ctl).braces = 1 := by
  rw [userValue, Value.braces, bracesAll_entries]
  rfl

theorem serverValue_braces (s : Record × List Record) :
    (serverValue isprint s).braces = 1 + s.2.length := by
  rw [serverValue, Value.braces, bracesAll_append, bracesAll_entries, bracesAll, Value.braces,
    Value.braces, bracesAll_eq, List.map_map]
  simp [Function.comp_def, userValue_braces, bracesAll]

/-- One dictionary for everything, one for each server and one for each user. -/
theorem configuration_braces (recs : List Record) :
    (configuration isprint runp recs).braces =
      1 + (servers recs).length + ((servers recs).map fun s => s.2.length).sum := by
  have hservers : ∀ ss : List (Record × List Record),
      (ss.map fun s => 1 + s.2.length).sum = ss.length + (ss.map fun s => s.2.length).sum := by
    intro ss
    induction ss with
    | nil => rfl
    | cons s ss ih =>
      simp only [List.map_cons, List.sum_cons, List.length_cons, ih]
      omega
  rw [configuration, Value.braces, bracesAll_append, bracesAll_entries, bracesAll, Value.braces,
    Value.braces, bracesAll_eq, List.map_map, Function.comp_def]
  simp only [serverValue_braces, hservers]
  simp [bracesAll]
  omega

/-! ## Servers and their users -/

/-- Every record is a leading one, or points to the last one before it, or to `a` if there is
none. -/
def Follows (a : Nat) : List Record → Prop
  | [] => True
  | ctl :: rest => ctl.lead = none ∧ Follows ctl.addr rest ∨ ctl.lead = some a ∧ Follows a rest

/-- The users are collected for each server. -/
def collect (server : Record × List Record) : List Record → List (Record × List Record)
  | [] => [server]
  | ctl :: rest =>
    if ctl.lead = none then server :: collect (ctl, [ctl]) rest
    else collect (server.1, server.2 ++ [ctl]) rest

theorem Follows.lead_ne {x : Nat} (h : Follows a recs) (hx : x ≠ a) (hmem : x ∉ recs.map Record.addr) :
    ∀ u ∈ recs, u.lead ≠ some x := by
  induction recs generalizing a with
  | nil => exact fun u hu => absurd hu List.not_mem_nil
  | cons ctl rest ih =>
    rw [List.map_cons, List.mem_cons, not_or] at hmem
    rcases h with ⟨hlead, hrest⟩ | ⟨hlead, hrest⟩
    · refine List.forall_mem_cons.mpr ⟨by simp [hlead], ih hrest hmem.1 hmem.2⟩
    · refine List.forall_mem_cons.mpr ⟨?_, ih hrest hx hmem.2⟩
      rw [hlead]
      exact fun heq => hx (Option.some.inj heq).symm

theorem filter_leading (h : ctl.lead = none) :
    (ctl :: rs).filter (·.lead = none) = ctl :: rs.filter (·.lead = none) :=
  List.filter_cons_of_pos (by simpa using h)

theorem filter_following (h : ctl.lead = some a) :
    (ctl :: rs).filter (·.lead = none) = rs.filter (·.lead = none) :=
  List.filter_cons_of_neg (by simp [h])

theorem filter_own : (ctl :: rs).filter (Belongs ctl ·) = ctl :: rs.filter (Belongs ctl ·) :=
  List.filter_cons_of_pos (decide_eq_true (.inl rfl))

/-- What has been collected is all that belongs to a server. -/
theorem collect_eq (h : Follows l.addr rs) (hnodup : (l.addr :: rs.map Record.addr).Nodup) :
    collect (l, us) rs = (l, us ++ rs.filter (Belongs l ·)) ::
      (rs.filter (·.lead = none)).map fun x => (x, rs.filter (Belongs x ·)) := by
  induction rs generalizing l us with
  | nil => simp [collect]
  | cons ctl rest ih =>
    rw [List.map_cons, List.nodup_cons, List.mem_cons, not_or] at hnodup
    obtain ⟨⟨hne, hl⟩, hnodup⟩ := hnodup
    have hctl : ctl.addr ∉ rest.map Record.addr := (List.nodup_cons.mp hnodup).1
    -- the record belongs to no later server
    have hlater : ∀ x ∈ rest, ctl.lead ≠ some x.addr →
        (ctl :: rest).filter (Belongs x ·) = rest.filter (Belongs x ·) := by
      intro x hx hlead
      refine List.filter_cons_of_neg ?_
      rw [decide_eq_true_eq]
      rintro (heq | heq)
      · exact hctl (heq ▸ List.mem_map_of_mem hx)
      · exact hlead heq
    rcases h with ⟨hlead, hrest⟩ | ⟨hlead, hrest⟩
    · -- a new server: nothing of the rest belongs to the old one
      have hnone : (ctl :: rest).filter (Belongs l ·) = [] := by
        refine List.filter_eq_nil_iff.mpr fun u hu => ?_
        rw [decide_eq_true_eq]
        rintro (heq | heq)
        · rcases List.mem_cons.mp hu with rfl | hu
          · exact hne heq.symm
          · exact hl (heq ▸ List.mem_map_of_mem hu)
        · rcases List.mem_cons.mp hu with rfl | hu
          · rw [hlead] at heq
            cases heq
          · exact hrest.lead_ne hne hl u hu heq
      rw [collect, if_pos hlead, ih hrest hnodup, hnone, List.append_nil, filter_leading hlead,
        List.map_cons, filter_own]
      refine congrArg _ (congrArg _ (List.map_congr_left fun x hx => ?_))
      rw [hlater x (List.mem_of_mem_filter hx) (by simp [hlead])]
    · -- a user of the old one
      have hself : (ctl :: rest).filter (Belongs l ·) = ctl :: rest.filter (Belongs l ·) :=
        List.filter_cons_of_pos (decide_eq_true (.inr hlead))
      rw [collect, if_neg (by simp [hlead]),
        ih hrest (List.nodup_cons.mpr ⟨hl, (List.nodup_cons.mp hnodup).2⟩), hself,
        List.append_assoc, List.singleton_append, filter_following hlead]
      refine congrArg _ (List.map_congr_left fun x hx => ?_)
      have hx := List.mem_of_mem_filter hx
      rw [hlater x hx]
      rw [hlead]
      exact fun heq => hl (Option.some.inj heq ▸ List.mem_map_of_mem hx)

/-- The users of a server are the records up to the next one. -/
theorem servers_cons (hlead : l.lead = none) (h : Follows l.addr rs)
    (hnodup : ((l :: rs).map Record.addr).Nodup) : servers (l :: rs) = collect (l, [l]) rs := by
  rw [List.map_cons] at hnodup
  rw [collect_eq h hnodup, servers, filter_leading hlead, List.map_cons, filter_own]
  refine congrArg _ (List.map_congr_left fun x hx => ?_)
  rw [List.filter_cons_of_neg]
  rw [decide_eq_true_eq]
  rintro (heq | heq)
  · exact (List.nodup_cons.mp hnodup).1 (heq ▸ List.mem_map_of_mem (List.mem_of_mem_filter hx))
  · rw [hlead] at heq
    cases heq

/-- A record whose server has been dropped belongs to none. -/
theorem servers_stray (hlead : l.lead = some a) (ha : a ∉ rs.map Record.addr)
    (hl : l.addr ∉ rs.map Record.addr) : servers (l :: rs) = servers rs := by
  rw [servers, filter_following hlead]
  refine List.map_congr_left fun x hx => ?_
  have hx := List.mem_map_of_mem (f := Record.addr) (List.mem_of_mem_filter hx)
  rw [List.filter_cons_of_neg]
  rw [decide_eq_true_eq]
  rintro (heq | heq)
  · exact hl (heq ▸ hx)
  · rw [hlead] at heq
    exact ha (Option.some.inj heq ▸ hx)

theorem collect_length (server : Record × List Record) (rs : List Record) :
    (collect server rs).length = 1 + rs.countP (·.lead = none) ∧
      ((collect server rs).map fun s => s.2.length).sum = server.2.length + rs.length := by
  induction rs generalizing server with
  | nil => exact ⟨rfl, rfl⟩
  | cons ctl rest ih =>
    rw [collect]
    split
    · next hlead =>
      obtain ⟨hlen, hsum⟩ := ih (ctl, [ctl])
      simp only [List.length_cons, List.map_cons, List.sum_cons, hlen, hsum, List.length_nil]
      rw [List.countP_cons_of_pos (by simpa using hlead)]
      omega
    · next hlead =>
      obtain ⟨hlen, hsum⟩ := ih (server.1, server.2 ++ [ctl])
      rw [List.countP_cons_of_neg (by simpa using hlead), hlen, hsum]
      refine ⟨rfl, ?_⟩
      rw [show (server.1, server.2 ++ [ctl]).2.length = server.2.length + 1 from
        List.length_append, List.length_cons]
      omega

/-- There are as many servers as leading records, and no more users than records, and fewer if the
first record is a stray one. -/
theorem servers_length (h : Follows a recs) (hnodup : (recs.map Record.addr).Nodup)
    (ha : a ∉ recs.map Record.addr) :
    (servers recs).length = recs.countP (·.lead = none) ∧
      ((servers recs).map fun s => s.2.length).sum ≤ recs.length ∧
      (((servers recs).map fun s => s.2.length).sum = recs.length ↔
        ∀ head ∈ recs.head?, head.lead = none) := by
  refine ⟨by rw [servers, List.length_map, List.countP_eq_length_filter], ?_⟩
  induction recs with
  | nil => exact ⟨Nat.le_refl 0, iff_of_true rfl fun head hhead => by cases hhead⟩
  | cons ctl rest ih =>
    have hcons := List.nodup_cons.mp hnodup
    rw [List.map_cons, List.mem_cons, not_or] at ha
    rcases h with ⟨hlead, hrest⟩ | ⟨hlead, hrest⟩
    · rw [servers_cons hlead hrest hnodup, (collect_length _ rest).2]
      refine ⟨by simp [Nat.add_comm], iff_of_true (by simp [Nat.add_comm]) ?_⟩
      rintro head ⟨⟩
      exact hlead
    · obtain ⟨hle, -⟩ := ih hrest hcons.2 ha.2
      rw [servers_stray hlead ha.2 hcons.1, List.length_cons]
      refine ⟨Nat.le_succ_of_le hle, iff_of_false (by omega) fun hhead => ?_⟩
      rw [hhead ctl rfl] at hlead
      cases hlead

/-! ## A dump that is a literal -/

/-- What is printed for a server entry with its users. -/
def serverText (isprint : UInt8 → Bool) (s : Record × List Record) : List Tok :=
  serverOpening isprint s.1 ++ s.2.flatMap (fun ctl => userText isprint ctl ++ [.comma]) ++
    [.closing .square, .closing .brace]

/-- What is printed for the servers, with commas between them. -/
def serversList (isprint : UInt8 → Bool) : List (Record × List Record) → List Tok
  | [] => []
  | s :: ss =>
    serverText isprint s ++ if ss.isEmpty then [] else .comma :: serversList isprint ss

theorem collect_isEmpty (s : Record × List Record) : (collect s rs).isEmpty = false := by
  induction rs generalizing s with
  | nil => rfl
  | cons ctl rest ih =>
    rw [collect]
    split
    · rfl
    · exact ih _

/-- The brackets that end a server are printed where the next one begins. -/
theorem recordsText_eq (habove : ∀ ctl ∈ rs, ctl.lead = none → querylist < ctl.addr)
    (s : Record × List Record) :
    serverOpening isprint s.1 ++ s.2.flatMap (fun ctl => userText isprint ctl ++ [.comma]) ++
      rs.flatMap (recordText isprint querylist) ++ [.closing .square, .closing .brace] =
    serversList isprint (collect s rs) := by
  induction rs generalizing s with
  | nil => simp [collect, serversList, serverText]
  | cons ctl rest ih =>
    rw [List.forall_mem_cons] at habove
    rw [collect]
    split
    · next hlead =>
      rw [serversList, collect_isEmpty, if_neg Bool.false_ne_true, ← ih habove.2, serverText,
        List.flatMap_cons, recordText, if_pos hlead, serverEnd, if_pos (habove.1 hlead)]
      simp
    · next hlead =>
      rw [← ih habove.2, List.flatMap_cons, recordText, if_neg hlead]
      simp

/-- The name of a server does not end the comment that it is in. -/
def Unbroken (ctl : Record) : Prop :=
  Bytes.lf ∉ cText ctl.ctl.pollname ∧ Bytes.cr ∉ cText ctl.ctl.pollname

/-- What is printed for a record is not broken. -/
structure Record.Sound (isprint : UInt8 → Bool) (ctl : Record) : Prop where
  comment : ctl.lead = none → Unbroken ctl
  server : ctl.lead = none → ∀ e ∈ serverMembers ctl.ctl, e.2.Sound isprint
  user : ∀ e ∈ userMembers ctl.ctl, e.2.Sound isprint

theorem runMembers_named (runp : Runctl) : ∀ e ∈ runp.members, e.2.Named := by
  simp [Runctl.members, Member.Named]

theorem serverMembers_named (ctl : Ctl) : ∀ e ∈ serverMembers ctl, e.2.Named := by
  rw [serverMembers]
  simp only [List.forall_mem_append, List.forall_mem_cons, List.forall_mem_map]
  refine ⟨⟨⟨⟨⟨?_, fun s _ => trivial⟩, ?_⟩, ?_⟩, ?_⟩, ?_⟩
  · refine ⟨trivial, trivial, trivial, trivial, trivial, trivial, trivial, ?_, trivial, trivial, ?_⟩
    · split <;> trivial
    · simp
  · simp [Member.Named]
  · split <;> simp [Member.Named]
  · split <;> simp [Member.Named]
  · simp [Member.Named]

theorem userMembers_named {ctl : Ctl} (h : ctl.opts.list .localnames ≠ []) :
    ∀ e ∈ userMembers ctl, e.2.Named := by
  simp only [userMembers, List.forall_mem_cons, Member.Named, List.not_mem_nil, false_imp_iff,
    implies_true, and_true, true_and]
  exact h

section

variable (hctrl : Controls isprint)
include hctrl

theorem spells_user (hnames : ctl.ctl.opts.list .localnames ≠ [])
    (h : ∀ e ∈ userMembers ctl.ctl, e.2.Sound isprint) :
    Spells Piece.ok (userText isprint ctl) (userValue isprint ctl) :=
  (fills_entries hctrl _ (userMembers_named hnames) h).ends.spells (.inl (by decide))

/-- A server entry, as a value with a comment in front of it. -/
theorem serverText_spells (s : Record × List Record) (hlead : s.1.lead = none)
    (hserver : s.1.Sound isprint)
    (husers : ∀ u ∈ s.2, u.ctl.opts.list .localnames ≠ [] ∧ u.Sound isprint) :
    ∃ ts, serverText isprint s = [.gap (.comment (cText s.1.ctl.pollname))] ++ ts ∧
      Spells Piece.ok ts (serverValue isprint s) := by
  have husers : Fills Piece.ok .square (s.2.flatMap fun ctl => userText isprint ctl ++ [.comma])
      (s.2.map (userValue isprint)) :=
    .flatMap fun u hu => (spells_user hctrl (husers u hu).1 (husers u hu).2.user).item (by decide)
  have hentries := fills_entries hctrl _ (serverMembers_named s.1.ctl) (hserver.server hlead)
  have hlist : Spells Piece.ok _ _ := husers.ends.spells (.inl (by decide))
  refine ⟨_, ?_, (hentries.append_ends (hlist.member_ends rfl)).spells (.inl (by decide))⟩
  simp [serverText, serverOpening]

theorem ends_servers (ss : List (Record × List Record))
    (h : ∀ s ∈ ss, s.1.lead = none ∧ s.1.Sound isprint ∧
      ∀ u ∈ s.2, u.ctl.opts.list .localnames ≠ [] ∧ u.Sound isprint) :
    Ends Piece.ok .square (serversList isprint ss) (ss.map (serverValue isprint)) := by
  induction ss with
  | nil => exact fills_nil.ends
  | cons s ss ih =>
    rw [List.forall_mem_cons] at h
    obtain ⟨⟨hlead, hserver, husers⟩, hrest⟩ := h
    obtain ⟨ts, htext, hspells⟩ := serverText_spells hctrl s hlead hserver husers
    have hgap : Fills Piece.ok .square [.gap (.comment (cText s.1.ctl.pollname))] [] :=
      fills_gap (decide_eq_true (hserver.comment hlead))
    rw [serversList, htext]
    cases ss with
    | nil =>
      rw [List.isEmpty_nil, if_pos rfl, List.append_nil]
      exact hgap.append_ends (hspells.ends (by decide))
    | cons s' ss =>
      have hends := (hgap.append (hspells.item (by decide))).append_ends (ih hrest)
      simpa using hends

end

/-- What it takes for the dump to be a literal. -/
structure Dumpable (isprint : UInt8 → Bool) (runp : Runctl) (recs : List Record) : Prop where
  lead : ∀ head ∈ recs.head?, head.lead = none
  above : ∀ head ∈ recs.head?, ∀ ctl ∈ recs.tail, ctl.lead = none → head.addr < ctl.addr
  run : ∀ e ∈ runp.members, e.2.Sound isprint
  records : ∀ ctl ∈ recs, ctl.Sound isprint

/-- Where each server entry is found to be one after the first, all brackets match. -/
theorem Dumpable.wellFormed (hctrl : Controls isprint)
    (hnames : ∀ ctl ∈ recs, ctl.ctl.opts.list .localnames ≠ []) (hfollows : Follows a recs)
    (hnodup : (recs.map Record.addr).Nodup) (h : Dumpable isprint runp recs) :
    WellFormed isprint runp recs := by
  have hservers : Ends Piece.ok .brace (serversText isprint recs)
      [.member (.lit "servers") (.group .square ((servers recs).map (serverValue isprint)))] := by
    cases recs with
    | nil =>
      have hempty : Spells Piece.ok [.opening .square, .closing .square] (.group .square []) :=
        fills_nil.ends.spells (.inl (by decide))
      exact hempty.member_ends rfl
    | cons l rs =>
      have hlead := h.lead l rfl
      -- the first record leads itself, and the others follow it or lead
      have hrest : Follows l.addr rs := by
        rcases hfollows with hfollows | hfollows
        · exact hfollows.2
        · rw [hlead] at hfollows
          cases hfollows.1
      have habove : ∀ ctl ∈ rs, ctl.lead = none → l.addr < ctl.addr := h.above l rfl
      have htext := @recordsText_eq isprint rs l.addr habove (l, [l])
      have hends := ends_servers hctrl (servers (l :: rs)) fun s hs => by
        obtain ⟨server, hserver, rfl⟩ := List.mem_map.mp hs
        obtain ⟨hmem, hnone⟩ := List.mem_filter.mp hserver
        refine ⟨by simpa using hnone, h.records server hmem, fun u hu => ?_⟩
        have hu := List.mem_of_mem_filter hu
        exact ⟨hnames u hu, h.records u hu⟩
      have hgap : Fills Piece.ok .brace
          [.gap (.comment (Bytes.lit " List of server entries begins here"))] [] :=
        fills_gap (by decide)
      have hlist : Spells Piece.ok _ _ := hends.spells (.inl (by decide))
      rw [servers_cons hlead hrest hnodup, ← htext] at hlist
      have hmember := hgap.append_ends (hlist.member_ends (rfl : Piece.ok (.lit "servers") = true))
      rw [serversText, servers_cons hlead hrest hnodup, List.flatMap_cons, recordText, if_pos hlead,
        serverEnd, if_neg (Nat.lt_irrefl l.addr)]
      simpa using hmember
  rw [WellFormed, tokens_dumpConfig]
  exact ((fills_entries hctrl _ (runMembers_named runp) h.run).append_ends hservers).parse
    (.inl (by decide))

/-! ## A literal needs it -/

theorem countP_forall {p q : Record → Bool} (hpq : ∀ x, p x = true → q x = true)
    (h : rs.countP q ≤ rs.countP p) : ∀ x ∈ rs, q x = true → p x = true := by
  induction rs with
  | nil => exact fun x hx => absurd hx List.not_mem_nil
  | cons x rs ih =>
    have hle : rs.countP p ≤ rs.countP q := List.countP_mono_left fun x _ => hpq x
    have hx := hpq x
    rw [List.countP_cons, List.countP_cons] at h
    refine List.forall_mem_cons.mpr ⟨fun hqx => ?_, ih ?_⟩
    · by_contra hpx
      rw [if_pos hqx, if_neg hpx] at h
      omega
    · split at h <;> split at h <;> first | omega | simp_all

theorem entries_sound (hctrl : Controls isprint) (es : List (String × Member))
    (h : ∀ t ∈ es.flatMap (entryText isprint), t.Sound Piece.ok) :
    ∀ e ∈ es, e.2.Sound isprint := by
  intro e he
  refine Member.text_sound hctrl fun t ht => h t (List.mem_flatMap.mpr ⟨e, he, ?_⟩)
  simp [entryText, ht]

/-- No token of a record is broken. -/
theorem recordText_sound (hctrl : Controls isprint)
    (h : ∀ t ∈ recordText isprint querylist ctl, t.Sound Piece.ok) : ctl.Sound isprint where
  comment hlead := by
    have hcomment : Piece.ok (.comment (cText ctl.ctl.pollname)) = true :=
      h (.gap (.comment (cText ctl.ctl.pollname))) (by simp [recordText, hlead, serverOpening])
    rw [Unbroken]
    exact of_decide_eq_true hcomment
  server hlead := by
    refine entries_sound hctrl _ fun t ht => h t ?_
    rw [recordText, if_pos hlead, serverOpening]
    simp [ht]
  user := by
    refine entries_sound hctrl _ fun t ht => h t ?_
    rw [recordText, userText]
    simp [ht]

theorem recordText_braces (hctrl : Controls isprint)
    (hnames : ctl.ctl.opts.list .localnames ≠ []) (h : ctl.Sound isprint) :
    (recordText isprint querylist ctl).countP Token.isOpenBrace =
        1 + (if ctl.lead = none then 1 else 0) ∧
      (recordText isprint querylist ctl).countP Token.isCloseBrace =
        1 + (if ctl.lead = none ∧ querylist < ctl.addr then 1 else 0) := by
  obtain ⟨hopen, hclose⟩ := (spells_user hctrl hnames h.user).braces
  rw [userValue_braces] at hopen hclose
  simp only [recordText, List.countP_append, hopen, hclose]
  by_cases hlead : ctl.lead = none
  · have hentries := fills_entries hctrl _ (serverMembers_named ctl.ctl) (h.server hlead)
    obtain ⟨hopen, hclose⟩ := hentries.braces
    rw [bracesAll_entries] at hopen hclose
    by_cases habove : querylist < ctl.addr <;>
      simp [hlead, habove, serverEnd, serverOpening, hopen, hclose, Token.isOpenBrace,
        Token.isCloseBrace, List.countP_cons]
  · simp [hlead, Token.isOpenBrace, Token.isCloseBrace]

theorem recordsText_braces (hctrl : Controls isprint) (recs : List Record)
    (hnames : ∀ ctl ∈ recs, ctl.ctl.opts.list .localnames ≠ [])
    (h : ∀ ctl ∈ recs, ctl.Sound isprint) :
    (recs.flatMap (recordText isprint querylist)).countP Token.isOpenBrace =
        recs.length + recs.countP (·.lead = none) ∧
      (recs.flatMap (recordText isprint querylist)).countP Token.isCloseBrace =
        recs.length + recs.countP (fun ctl => ctl.lead = none ∧ querylist < ctl.addr) := by
  induction recs with
  | nil => exact ⟨rfl, rfl⟩
  | cons ctl rest ih =>
    rw [List.forall_mem_cons] at hnames h
    obtain ⟨hopen, hclose⟩ := @recordText_braces isprint ctl querylist hctrl hnames.1 h.1
    obtain ⟨ihopen, ihclose⟩ := ih hnames.2 h.2
    rw [List.flatMap_cons, List.countP_append, List.countP_append, hopen, hclose, ihopen, ihclose,
      List.countP_cons, List.countP_cons, List.length_cons]
    simp only [decide_eq_true_eq]
    omega

/-- A stray record has a brace too many, and a server entry that is not found to be a later one
lacks the brace that ends the one before it. -/
theorem WellFormed.dumpable (hctrl : Controls isprint)
    (hnames : ∀ ctl ∈ recs, ctl.ctl.opts.list .localnames ≠ []) (hfollows : Follows a recs)
    (ha : a ∉ recs.map Record.addr) (hnodup : (recs.map Record.addr).Nodup)
    (h : WellFormed isprint runp recs) : Dumpable isprint runp recs := by
  rw [WellFormed, tokens_dumpConfig] at h
  -- no token is broken
  have hsound := run_sound (parse_eq_some.mp h)
  have hrun : ∀ e ∈ runp.members, e.2.Sound isprint :=
    entries_sound hctrl _ fun t ht => hsound t (by simp [ht])
  have hrecords : ∀ ctl ∈ recs, ctl.Sound isprint := by
    cases recs with
    | nil => exact fun ctl hctl => absurd hctl List.not_mem_nil
    | cons l rs =>
      intro ctl hctl
      refine @recordText_sound isprint ctl l.addr hctrl fun t ht => hsound t ?_
      have hmem : t ∈ (l :: rs).flatMap (recordText isprint l.addr) :=
        List.mem_flatMap.mpr ⟨ctl, hctl, ht⟩
      rw [serversText]
      simp only [List.mem_append, List.mem_cons]
      tauto
  -- the braces
  obtain ⟨hopen, hclose⟩ := parse_braces h
  obtain ⟨hlen, hle, hiff⟩ := servers_length hfollows hnodup ha
  have hmembers := (fills_entries hctrl _ (runMembers_named runp) hrun).braces
  rw [bracesAll_entries] at hmembers
  cases recs with
  | nil =>
    exact ⟨fun head hhead => (by cases hhead), fun head hhead => (by cases hhead), hrun, hrecords⟩
  | cons l rs =>
    obtain ⟨hopens, hcloses⟩ :=
      @recordsText_braces isprint l.addr hctrl (l :: rs) hnames hrecords
    rw [configuration_braces, hlen] at hopen hclose
    simp only [serversText, List.countP_append, List.countP_cons, hmembers, hopens, hcloses,
      List.countP_nil, Token.isOpenBrace, Token.isCloseBrace, Bool.false_eq_true, if_false, if_true,
      Nat.lt_irrefl, and_false, decide_false] at hopen hclose
    have hsum : ((servers (l :: rs)).map fun s => s.2.length).sum = (l :: rs).length := by omega
    have hlead : l.lead = none := hiff.mp hsum l rfl
    have hcount : rs.countP (·.lead = none) ≤
        rs.countP (fun ctl => ctl.lead = none ∧ l.addr < ctl.addr) := by
      rw [if_pos (decide_eq_true hlead)] at hclose
      omega
    have habove := countP_forall (fun x hx => decide_eq_true (of_decide_eq_true hx).1) hcount
    refine ⟨hiff.mp hsum, ?_, hrun, hrecords⟩
    rintro head ⟨⟩ ctl hctl hnone
    exact (of_decide_eq_true (habove ctl hctl (decide_eq_true hnone))).2

/-! ## The list -/

/-- The records are registered behind the ones that there are. -/
theorem handle_spec (es : List Event) (h : Hosts) (ha : h.trailer = false ∨ h.leadentry = some a) :
    ∃ ext, (es.foldl Hosts.handle h).querylist = h.querylist ++ ext ∧
      ext.map Record.addr = addresses es ∧ Follows a ext ∧
      (h.trailer = false → ∀ head ∈ ext.head?, head.lead = none) := by
  induction es generalizing h a with
  | nil => exact ⟨[], by simp, rfl, trivial, fun _ head hhead => by cases hhead⟩
  | cons e es ih =>
    rw [List.foldl_cons]
    cases e with
    | server =>
      obtain ⟨ext, heq, haddr, hfollows, hhead⟩ := ih (h.handle .server) (.inl rfl)
      exact ⟨ext, heq, haddr, hfollows, fun _ => hhead rfl⟩
    | record addr ctl =>
      -- with `trailer` set the record belongs to the entry that leads, without it the record leads
      by_cases htrailer : h.trailer = true
      · have hlead := ha.resolve_left (by simp [htrailer])
        obtain ⟨ext, heq, haddr, hfollows, -⟩ := @ih a (h.handle (.record addr ctl))
          (.inr (by simpa [Hosts.handle, hostalloc, htrailer] using hlead))
        refine ⟨⟨addr, some a, ctl⟩ :: ext, ?_, ?_, .inr ⟨rfl, hfollows⟩, ?_⟩
        · rw [heq]
          simp [Hosts.handle, hostalloc, htrailer, hlead]
        · rw [List.map_cons, haddr]
          rfl
        · simp [htrailer]
      · obtain ⟨ext, heq, haddr, hfollows, -⟩ := @ih addr (h.handle (.record addr ctl))
          (.inr (by simp [Hosts.handle, hostalloc, htrailer]))
        refine ⟨⟨addr, none, ctl⟩ :: ext, ?_, ?_, .inl ⟨rfl, hfollows⟩, ?_⟩
        · rw [heq]
          simp [Hosts.handle, hostalloc, htrailer]
        · rw [List.map_cons, haddr]
          rfl
        · rintro - head ⟨⟩
          rfl

theorem register_spec (es : List Event) : (register es).map Record.addr = addresses es ∧
    Follows a (register es) ∧ ∀ head ∈ (register es).head?, head.lead = none := by
  obtain ⟨ext, heq, haddr, hfollows, hhead⟩ := @handle_spec a es ⟨[], none, false⟩ (.inl rfl)
  rw [register, heq, List.nil_append]
  exact ⟨haddr, hfollows, hhead rfl⟩

/-- `load_params` changes what the records hold. -/
theorem zipWith_spec (ctls : List Ctl) (hlen : recs.length = ctls.length) :
    (List.zipWith (fun rec ctl => ({ rec with ctl := ctl } : Record)) recs ctls).map Record.addr =
        recs.map Record.addr ∧
      (List.zipWith (fun rec ctl => ({ rec with ctl := ctl } : Record)) recs ctls).map Record.ctl =
        ctls ∧
      (Follows a recs →
        Follows a (List.zipWith (fun rec ctl => { rec with ctl := ctl }) recs ctls)) := by
  induction recs generalizing ctls a with
  | nil =>
    cases ctls with
    | nil => exact ⟨rfl, rfl, fun _ => trivial⟩
    | cons c ctls => cases hlen
  | cons ctl recs ih =>
    cases ctls with
    | nil => cases hlen
    | cons c ctls =>
      have hlen : recs.length = ctls.length := Nat.succ.inj hlen
      obtain ⟨haddr, hctl, -⟩ := @ih 0 ctls hlen
      refine ⟨congrArg (ctl.addr :: ·) haddr, congrArg (c :: ·) hctl, ?_⟩
      rintro (⟨hlead, hrest⟩ | ⟨hlead, hrest⟩)
      · exact .inl ⟨hlead, (ih ctls hlen).2.2 hrest⟩
      · exact .inr ⟨hlead, (ih ctls hlen).2.2 hrest⟩

/-- The records that are kept: there may be one that points to a record that has been dropped. -/
theorem kept_spec (es : List Event) (haddr : (addresses es).Nodup) :
    let kept := if ((register es).head?.map (·.ctl.pollname)) = some "defaults" then
      (register es).tail else register es
    (∃ a, Follows a kept ∧ a ∉ kept.map Record.addr) ∧ (kept.map Record.addr).Nodup ∧
      kept.length = (mergeDefaults ((register es).map (·.ctl))).length := by
  -- an address above all that were given
  obtain ⟨fresh, hfresh⟩ : ∃ a, a ∉ addresses es :=
    ⟨(addresses es).max?.getD 0 + 1, fun hmem =>
      absurd (List.le_max?_getD_of_mem hmem) (Nat.not_succ_le_self _)⟩
  obtain ⟨hmap, hfollows, hhead⟩ := @register_spec fresh es
  rw [← hmap] at haddr hfresh
  cases hregister : register es with
  | nil => exact ⟨⟨fresh, trivial, List.not_mem_nil⟩, List.nodup_nil, rfl⟩
  | cons c rest =>
    rw [hregister] at hfollows hhead haddr hfresh
    simp only [List.head?_cons, Option.map_some, Option.some.injEq, List.map_cons, mergeDefaults,
      List.tail_cons]
    split
    · have hlead := hhead c rfl
      have hrest : Follows c.addr rest := by
        rcases hfollows with hfollows | hfollows
        · exact hfollows.2
        · rw [hlead] at hfollows
          cases hfollows.1
      obtain ⟨hc, hnodup⟩ := List.nodup_cons.mp haddr
      exact ⟨⟨c.addr, hrest, hc⟩, hnodup, by rw [List.length_map, List.length_map]⟩
    · exact ⟨⟨fresh, hfollows, hfresh⟩, haddr, by simp⟩

/-- The records that `load_params` leaves. -/
theorem loadRecords_spec {r : Run} {cmdOpts : Query} {es : List Event} (hdump : r.configdump = true)
    (haddr : (addresses es).Nodup) (h : loadRecords r cmdOpts (register es) = some recs) :
    (∃ a, Follows a recs ∧ a ∉ recs.map Record.addr) ∧ (recs.map Record.addr).Nodup ∧
      ∀ ctl ∈ recs, ctl.ctl.opts.list .localnames ≠ [] := by
  obtain ⟨ctls, hload, rfl⟩ := Option.map_eq_some_iff.mp h
  obtain ⟨⟨a, hfollows, ha⟩, hnodup, hlen⟩ := kept_spec es haddr
  obtain ⟨-, hload⟩ := Option.ite_none_left_eq_some.mp hload
  obtain rfl := Option.some.inj hload
  obtain ⟨haddrs, hctls, hkeep⟩ := zipWith_spec _ (hlen.trans (List.length_map _).symm)
  refine ⟨⟨a, hkeep hfollows, by rwa [haddrs]⟩, by rwa [haddrs], ?_⟩
  intro ctl hctl
  have hmem := List.mem_map_of_mem (f := Record.ctl) hctl
  rw [hctls] at hmem
  obtain ⟨c, -, hc⟩ := List.mem_map.mp hmem
  rw [← hc]
  simp only [loadCtl, hdump, Bool.true_or, if_true, setDefaults]
  split
  · exact List.cons_ne_nil _ _
  · assumption

/-- **The dump is a literal with each server in it once and with its users**, exactly if a server
entry comes first, all others lie above it, and nothing that is printed is broken. -/
theorem dumpConfig_wellFormed_iff (hctrl : Controls isprint) (r : Run) (hdump : r.configdump = true)
    (cmdOpts : Query) (runp : Runctl) (es : List Event) (haddr : (addresses es).Nodup)
    (h : loadRecords r cmdOpts (register es) = some recs) :
    WellFormed isprint runp recs ↔ Dumpable isprint runp recs := by
  obtain ⟨⟨a, hfollows, ha⟩, hnodup, hnames⟩ := loadRecords_spec hdump haddr h
  exact ⟨WellFormed.dumpable hctrl hnames hfollows ha hnodup,
    Dumpable.wellFormed hctrl hnames hfollows hnodup⟩

/-- A record without options. -/
def bare (pollname : String) : Ctl :=
  ⟨pollname, true, ⟨fun _ => none, fun _ => 0, fun _ => 0, fun _ => []⟩⟩

/-- A run without options. -/
def bareRun : Runctl := ⟨0, none, none, none, false, false, false, none, false, false, false⟩

theorem dumpConfig_wellFormed_iff_two : ∃ recs, loadRecords ⟨"joe", "localhost", true⟩
    (bare "").opts (register [.server, .record 1 (bare "a"), .record 2 (bare "a"), .server,
      .record 3 (bare "b")]) = some recs ∧
    (WellFormed isprintC bareRun recs ↔ Dumpable isprintC bareRun recs) := by
  exact ⟨_, rfl, dumpConfig_wellFormed_iff controls_isprintC ⟨"joe", "localhost", true⟩ rfl
    (bare "").opts bareRun [.server, .record 1 (bare "a"), .record 2 (bare "a"), .server,
      .record 3 (bare "b")] (by decide) rfl⟩

set_option maxRecDepth 2000 in
/-- The second record lies below the first one, and nothing ends the first server. -/
theorem dumpConfig_lower_server : ∃ recs, loadRecords ⟨"joe", "localhost", true⟩ (bare "").opts
    (register [.server, .record 2 (bare "a"), .server, .record 1 (bare "b")]) = some recs ∧
    ¬WellFormed isprintC bareRun recs := by
  refine ⟨_, rfl, fun h => ?_⟩
  rw [WellFormed, tokens_dumpConfig] at h
  obtain ⟨hopen, hclose⟩ := parse_braces h
  refine absurd (hopen.trans hclose.symm) ?_
  decide +kernel

end Fetchmail.Config.Dump
