import LibSystem.Trie
import LibSystem.Lnk.Symbols

/-!
# Export lookup is exact

What it means that bytes encode an export trie, and that the walk of the
linker computes exactly the lookup of `Trie.lean`.
-/

namespace LibSystem.Lnk

/-- A plain exported symbol: no re-export and no resolver. -/
structure Export where
  flags : Nat
  offset : Nat
  kind_regular : flags % 4 = 0
  not_reexport : flags.testBit 3 = false
  not_resolver : flags.testBit 4 = false
  offset_lt : offset < 2 ^ 32

/-- The payload of a node: nothing, or the flags and then the offset. -/
def PayloadOf : Option Export → List Byte → Prop
  | none, payload => payload = []
  | some e, payload => ∃ flags offset, payload = flags ++ offset ∧
      Uleb64 flags e.flags ∧ Uleb64 offset e.offset

mutual

/-- The node at offset `off` of the buffer. -/
def NodeAt (buf : List Byte) : Trie Byte Export → Nat → Prop
  | .node value edges, off => ∃ size payload count, PayloadOf value payload ∧
      Uleb64 size payload.length ∧ count.toNat = edges.length ∧
      size ++ payload ++ [count] <+: buf.drop off ∧
      EdgesAt buf edges (off + size.length + payload.length + 1)

def EdgesAt (buf : List Byte) : Edges Byte Export → Nat → Prop
  | .nil, _ => True
  | .cons label child rest, off => ∃ offset childOff, Uleb64 offset childOff ∧ childOff ≠ 0 ∧
      (∀ b ∈ label, b ≠ 0) ∧ label ++ 0 :: offset <+: buf.drop off ∧ NodeAt buf child childOff ∧
      EdgesAt buf rest (off + label.length + 1 + offset.length)

end

/-- The bytes of the buffer, which is not at the null address and does not wrap. -/
structure BufferAt (mem : Mem) (start stop : Addr) (buf : List Byte) : Prop where
  start_ne : start ≠ 0
  fits : start.toNat + buf.length < 2 ^ 32
  holds : mem.Holds start buf
  stop_eq : stop = start + BitVec.ofNat 32 buf.length

namespace BufferAt

variable {mem : Mem} {start stop : Addr} {buf : List Byte}

theorem toNat_at (h : BufferAt mem start stop buf) (off : Nat) (hoff : off ≤ buf.length) :
    (start + BitVec.ofNat 32 off).toNat = start.toNat + off := by
  have := h.fits
  rw [BitVec.toNat_add, BitVec.toNat_ofNat]
  omega

theorem ne_zero (h : BufferAt mem start stop buf) (off : Nat) (hoff : off ≤ buf.length) :
    start + BitVec.ofNat 32 off ≠ 0 := by
  intro h0
  have hat := h.toNat_at off hoff
  have hpos : start.toNat ≠ 0 := fun he => h.start_ne (BitVec.eq_of_toNat_eq he)
  rw [h0] at hat
  simp at hat
  omega

theorem ne_stop (h : BufferAt mem start stop buf) (off : Nat) (hoff : off < buf.length) :
    start + BitVec.ofNat 32 off ≠ stop := by
  intro he
  have h1 := h.toNat_at off (Nat.le_of_lt hoff)
  have h2 := h.toNat_at _ (Nat.le_refl buf.length)
  rw [he, h.stop_eq] at h1
  omega

theorem add_at (start : Addr) (off n : Nat) :
    start + BitVec.ofNat 32 off + BitVec.ofNat 32 n = start + BitVec.ofNat 32 (off + n) := by
  rw [BitVec.add_assoc, BitVec.ofNat_add]

theorem piece_length {piece : List Byte} {off : Nat} (hp : piece <+: buf.drop off) :
    piece.length ≤ buf.length - off := by
  simpa using hp.length_le

theorem readUleb128 (h : BufferAt mem start stop buf) {bytes : List Byte} {v off : Nat}
    (hv : Uleb64 bytes v) (hp : bytes <+: buf.drop off) :
    readUleb128 mem (start + BitVec.ofNat 32 off) stop =
      .done (BitVec.ofNat 32 v, start + BitVec.ofNat 32 (off + bytes.length)) := by
  have hlen := piece_length hp
  rw [readUleb128_spec hv (h.holds.piece hp), add_at]
  intro i hi
  rw [add_at]
  exact h.ne_stop _ (by omega)

end BufferAt

/-! ## One node -/

theorem charAt_eq_zero {s : List Byte} (h : ∀ b ∈ s, b ≠ 0) : charAt s = 0 ↔ s = [] := by
  cases s with
  | nil => simp [charAt]
  | cons b s => simpa [charAt] using h b (by simp)

theorem scanEdge_wrong {mem : Mem} {label : List Byte} (hlabel : ∀ b ∈ label, b ≠ 0) (fuel : Nat)
    (p : Addr) (ss : List Byte) (hmem : mem.Holds p (label ++ [0])) (hfuel : label.length < fuel) :
    scanEdge mem fuel p ss true = .done (p + BitVec.ofNat 32 label.length, ss, true) := by
  induction label generalizing fuel p with
  | nil =>
    obtain ⟨fuel, rfl⟩ : ∃ k, fuel = k + 1 := ⟨fuel - 1, by simp at hfuel; omega⟩
    rw [scanEdge, if_pos (Mem.holds_cons.mp hmem).1]
    simp
  | cons b label ih =>
    obtain ⟨fuel, rfl⟩ : ∃ k, fuel = k + 1 := ⟨fuel - 1, by simp at hfuel; omega⟩
    obtain ⟨hb, hrest⟩ := Mem.holds_cons.mp hmem
    rw [scanEdge, hb, if_neg (hlabel b (by simp)), if_pos rfl,
      ih (fun x hx => hlabel x (by simp [hx])) fuel (p + 1) hrest (by simpa using hfuel),
      List.length_cons, Mem.ofNat_succ, ← BitVec.add_assoc]

theorem scanEdge_spec {mem : Mem} {label : List Byte} (hlabel : ∀ b ∈ label, b ≠ 0) (fuel : Nat)
    (p : Addr) (ss : List Byte) (hss : ∀ b ∈ ss, b ≠ 0) (hmem : mem.Holds p (label ++ [0]))
    (hfuel : label.length < fuel) :
    ∃ ss', scanEdge mem fuel p ss false =
        .done (p + BitVec.ofNat 32 label.length, ss', decide ¬ label <+: ss) ∧
      (label <+: ss → ss' = ss.drop label.length) := by
  induction label generalizing fuel p ss with
  | nil =>
    obtain ⟨fuel, rfl⟩ : ∃ k, fuel = k + 1 := ⟨fuel - 1, by simp at hfuel; omega⟩
    refine ⟨ss, ?_, by simp⟩
    rw [scanEdge, if_pos (Mem.holds_cons.mp hmem).1]
    simp
  | cons b label ih =>
    obtain ⟨fuel, rfl⟩ : ∃ k, fuel = k + 1 := ⟨fuel - 1, by simp at hfuel; omega⟩
    obtain ⟨hb, hrest⟩ := Mem.holds_cons.mp hmem
    have hb0 : b ≠ 0 := hlabel b (by simp)
    have hlabel' : ∀ x ∈ label, x ≠ 0 := fun x hx => hlabel x (by simp [hx])
    have hfuel' : label.length < fuel := by simpa using hfuel
    simp only [scanEdge, hb, if_neg hb0, Bool.false_eq_true, if_false, List.length_cons,
      Mem.ofNat_succ, ← BitVec.add_assoc]
    by_cases hc : b = charAt ss
    · -- The byte fits, so the symbol goes on.
      obtain ⟨c, ss, rfl⟩ : ∃ c t, ss = c :: t := by
        cases ss with
        | nil => exact absurd hc hb0
        | cons c t => exact ⟨c, t, rfl⟩
      obtain rfl : b = c := hc
      obtain ⟨ss', hscan, hdrop⟩ := ih hlabel' fuel (p + 1) ss (fun x hx => hss x (by simp [hx]))
        hrest hfuel'
      refine ⟨ss', ?_, ?_⟩
      · simp only [charAt, List.headD_cons, bne_self_eq_false, List.tail_cons, hscan,
          List.cons_prefix_cons, true_and]
      · simpa using hdrop
    · have hnot : ¬ b :: label <+: ss := by
        rintro ⟨t, rfl⟩
        exact hc (by simp [charAt])
      refine ⟨ss.tail, ?_, fun h => absurd h hnot⟩
      rw [bne_iff_ne.mpr hc, scanEdge_wrong hlabel' fuel (p + 1) ss.tail hrest hfuel']
      simp [hnot]

theorem skipUleb_spec {mem : Mem} {bytes : List Byte} {v : Nat} (h : Uleb bytes v) (fuel : Nat)
    (p : Addr) (hmem : mem.Holds p bytes) (hfuel : bytes.length ≤ fuel) :
    ∃ q, skipUleb mem fuel p = .done q ∧ q + 1 = p + BitVec.ofNat 32 bytes.length := by
  induction h generalizing fuel p with
  | last b hb =>
    obtain ⟨fuel, rfl⟩ : ∃ k, fuel = k + 1 := ⟨fuel - 1, by simp at hfuel; omega⟩
    refine ⟨p, ?_, by simp⟩
    rw [skipUleb, (Mem.holds_cons.mp hmem).1, if_neg (by rw [high_bit_iff]; omega)]
  | more b bytes v hb _ ih =>
    obtain ⟨fuel, rfl⟩ : ∃ k, fuel = k + 1 := ⟨fuel - 1, by simp at hfuel; omega⟩
    obtain ⟨hp, hrest⟩ := Mem.holds_cons.mp hmem
    obtain ⟨q, hq, hq1⟩ := ih fuel (p + 1) hrest (by simpa using hfuel)
    refine ⟨q, ?_, ?_⟩
    · rw [skipUleb, hp, if_pos ((high_bit_iff b).mpr hb), hq]
    · rw [hq1, List.length_cons, Mem.ofNat_succ, ← BitVec.add_assoc]

/-! ## The walk -/

theorem nodeAt_lt {buf : List Byte} (t : Trie Byte Export) (off : Nat) (h : NodeAt buf t off) :
    off < buf.length := by
  match t, h with
  | .node value edges, ⟨size, payload, count, _, _, _, hp, _⟩ =>
    have := BufferAt.piece_length hp
    simp at this
    omega

/-- The walk ends at the payload of `e`, or at null. -/
def WalkResult (start : Addr) (buf : List Byte) (r : Outcome Addr) : Option Export → Prop
  | none => r = .done 0
  | some e => ∃ off payload, PayloadOf (some e) payload ∧ payload <+: buf.drop off ∧
      r = .done (start + BitVec.ofNat 32 off)

theorem payload_length_pos {e : Export} {payload : List Byte} (h : PayloadOf (some e) payload) :
    0 < payload.length := by
  obtain ⟨flags, offset, rfl, hflags, -⟩ := h
  have := hflags.1.length_pos
  simp
  omega

theorem ofNat_ne_zero (n : Nat) (h : n ≠ 0) (hlt : n < 2 ^ 32) : BitVec.ofNat 32 n ≠ 0 := by
  intro h0
  have := congrArg BitVec.toNat h0
  simp at this
  omega

section Walk

variable {mem : Mem} {start stop : Addr} {buf : List Byte}

theorem readTerminalSize_spec (h : BufferAt mem start stop buf) {size : List Byte} {n off : Nat}
    (hn : Uleb64 size n) (hp : size <+: buf.drop off) :
    readTerminalSize mem (start + BitVec.ofNat 32 off) stop =
      .done (BitVec.ofNat 32 n, start + BitVec.ofNat 32 (off + size.length)) := by
  unfold readTerminalSize
  split
  · exact h.readUleb128 hn hp
  · rename_i hsmall
    obtain ⟨b, size, rfl⟩ := List.exists_cons_of_length_pos hn.1.length_pos
    have hb : mem (start + BitVec.ofNat 32 off) = b := (Mem.holds_cons.mp (h.holds.piece hp)).1
    rw [hb] at hsmall ⊢
    obtain ⟨rfl, rfl⟩ := hn.1.head_small (by omega)
    simp [← BufferAt.add_at]

theorem stops_iff (h : BufferAt mem start stop buf) {value : Option Export} {payload s : List Byte}
    (hpayload : PayloadOf value payload) (hlen : payload.length ≤ buf.length)
    (hs : ∀ b ∈ s, b ≠ 0) :
    (charAt s = 0 ∧ BitVec.ofNat 32 payload.length ≠ 0) ↔ (s = [] ∧ value.isSome) := by
  have hfits := h.fits
  rw [charAt_eq_zero hs]
  cases value with
  | none =>
    obtain rfl : payload = [] := hpayload
    simp
  | some e =>
    have hpos := payload_length_pos hpayload
    have hne := ofNat_ne_zero payload.length (by omega) (by omega)
    exact and_congr_right fun _ => iff_of_true hne rfl

mutual

theorem walk_node (h : BufferAt mem start stop buf) {scan : Nat} (hscan : buf.length ≤ scan)
    (t : Trie Byte Export) (off : Nat) (hat : NodeAt buf t off) (s : List Byte)
    (hs : ∀ b ∈ s, b ≠ 0) (fuel : Nat) (hfuel : t.depth ≤ fuel) :
    WalkResult start buf (trieWalkLoop mem start stop scan fuel (start + BitVec.ofNat 32 off) s)
      (t.lookup s) := by
  match t, hat with
  | .node value edges, ⟨size, payload, count, hpayload, hsize, hcount, hp, hedges⟩ =>
    rw [Trie.depth] at hfuel
    obtain ⟨fuel, rfl⟩ : ∃ k, fuel = k + 1 := ⟨fuel - 1, by omega⟩
    have hlen := BufferAt.piece_length hp
    simp only [List.length_append, List.length_singleton] at hlen
    have hpsize : size <+: buf.drop off := by
      rw [List.append_assoc] at hp
      exact (List.prefix_append _ _).trans hp
    have hppayload : payload <+: buf.drop (off + size.length) := by
      obtain ⟨rest, hrest⟩ := hp
      rw [← List.drop_drop, ← hrest]
      simp
    have hpcount : [count] <+: buf.drop (off + size.length + payload.length) := by
      obtain ⟨rest, hrest⟩ := hp
      rw [Nat.add_assoc, ← List.drop_drop, ← hrest, List.append_assoc, List.append_assoc,
        ← List.append_assoc size, List.drop_append_of_le_length (by simp)]
      simp
    rw [trieWalkLoop, if_neg (h.ne_zero _ (by omega)), readTerminalSize_spec h hsize hpsize]
    simp only [Outcome.done_bind]
    rw [Trie.lookup]
    have hstops := stops_iff h hpayload (by omega) hs
    by_cases hstop : s = [] ∧ value.isSome
    · rw [if_pos (hstops.mpr hstop), if_pos hstop]
      obtain ⟨e, rfl⟩ := Option.isSome_iff_exists.mp hstop.2
      exact ⟨_, payload, hpayload, hppayload, rfl⟩
    · rw [if_neg (fun hc => hstop (hstops.mp hc)), if_neg hstop]
      have hmem := (Mem.holds_cons.mp (h.holds.piece hpcount)).1
      rw [BufferAt.add_at, hmem, hcount,
        show (1 : Addr) = BitVec.ofNat 32 1 from rfl, BufferAt.add_at]
      obtain ⟨o, s', hwalk, hresult⟩ := walk_edges h hscan edges _ hedges s hs
      rw [hwalk]
      exact hresult fuel (by omega)

theorem walk_edges (h : BufferAt mem start stop buf) {scan : Nat} (hscan : buf.length ≤ scan)
    (edges : Edges Byte Export) (off : Nat) (hat : EdgesAt buf edges off) (s : List Byte)
    (hs : ∀ b ∈ s, b ≠ 0) :
    ∃ o s', walkChildren mem stop scan edges.length (start + BitVec.ofNat 32 off) s =
        .done (o, s') ∧
      ∀ fuel, edges.depth ≤ fuel → WalkResult start buf
        (trieWalkLoop mem start stop scan fuel (if o ≠ 0 then start + o else 0) s')
        (edges.lookup s) := by
  match edges, hat with
  | .nil, _ =>
    refine ⟨0, s, rfl, fun fuel hfuel => ?_⟩
    rw [Edges.depth] at hfuel
    obtain ⟨fuel, rfl⟩ : ∃ k, fuel = k + 1 := ⟨fuel - 1, by omega⟩
    simp [trieWalkLoop, Edges.lookup, WalkResult]
  | .cons label child rest, ⟨offset, childOff, hoffset, hne, hlabel, hp, hchild, hrest⟩ =>
    have hlen := BufferAt.piece_length hp
    simp only [List.length_append, List.length_cons] at hlen
    have hplabel : label ++ [0] <+: buf.drop off := by
      rw [show label ++ 0 :: offset = label ++ [0] ++ offset by simp] at hp
      exact (List.prefix_append _ _).trans hp
    have hpoffset : offset <+: buf.drop (off + label.length + 1) := by
      obtain ⟨tail, htail⟩ := hp
      rw [Nat.add_assoc, ← List.drop_drop, ← htail]
      simp
    obtain ⟨ss', hscanEdge, hdrop⟩ := scanEdge_spec hlabel scan (start + BitVec.ofNat 32 off) s hs
      (h.holds.piece hplabel) (by omega)
    rw [Edges.length, walkChildren, hscanEdge]
    simp only [Outcome.done_bind, decide_eq_true_eq]
    rw [BufferAt.add_at, show (1 : Addr) = BitVec.ofNat 32 1 from rfl, BufferAt.add_at]
    rw [Edges.lookup]
    by_cases hfit : label <+: s
    · rw [if_neg (not_not.mpr hfit), if_pos hfit, h.readUleb128 hoffset hpoffset, hdrop hfit]
      refine ⟨_, _, rfl, fun fuel hfuel => ?_⟩
      rw [Edges.depth] at hfuel
      have hlt := nodeAt_lt child childOff hchild
      have hfits := h.fits
      rw [if_pos (ofNat_ne_zero childOff hne (by omega))]
      exact walk_node h hscan child childOff hchild _ (fun b hb => hs b (List.mem_of_mem_drop hb))
        fuel (by omega)
    · obtain ⟨q, hq, hq1⟩ := skipUleb_spec hoffset.1 scan _ (h.holds.piece hpoffset) (by omega)
      rw [if_pos hfit, if_neg hfit, hq]
      simp only [Outcome.done_bind]
      rw [show (1 : Addr) = BitVec.ofNat 32 1 from rfl] at hq1
      rw [hq1, BufferAt.add_at]
      obtain ⟨o, s', hwalk, hresult⟩ := walk_edges h hscan rest _ hrest s hs
      refine ⟨o, s', hwalk, fun fuel hfuel => hresult fuel ?_⟩
      rw [Edges.depth] at hfuel
      omega

end

end Walk

theorem trieWalk_spec {mem : Mem} {start stop : Addr} {buf : List Byte}
    (h : BufferAt mem start stop buf) (t : Trie Byte Export) (hat : NodeAt buf t 0) (s : CString)
    (fuel : Nat) (hbuf : buf.length ≤ fuel) (hdepth : t.depth ≤ fuel) :
    WalkResult start buf (trieWalk fuel mem start stop s.bytes) (t.lookup s.bytes) := by
  have := walk_node h hbuf t 0 hat s.bytes s.nul_free fuel hdepth
  simpa [trieWalk] using this

/-! ## The flags of a plain export -/

theorem and_bit_eq_zero (flags i : Nat) (hi : i < 32) (h : flags.testBit i = false) :
    BitVec.ofNat 32 flags &&& BitVec.ofNat 32 (2 ^ i) = 0 := by
  apply BitVec.eq_of_toNat_eq
  have hlt : 2 ^ i < 2 ^ 32 := Nat.pow_lt_pow_right (by omega) hi
  simp only [BitVec.toNat_and, BitVec.toNat_ofNat, Nat.mod_eq_of_lt hlt]
  apply Nat.eq_of_testBit_eq
  intro j
  rw [Nat.testBit_and, Nat.testBit_mod_two_pow, Nat.testBit_two_pow]
  by_cases hij : i = j
  · simp [← hij, h]
  · simp [hij]

theorem Export.reexport_eq_zero (e : Export) :
    BitVec.ofNat 32 e.flags &&& exportSymbolFlagsReexport = 0 :=
  and_bit_eq_zero e.flags 3 (by omega) e.not_reexport

theorem Export.resolver_eq_zero (e : Export) :
    BitVec.ofNat 32 e.flags &&& exportSymbolFlagsStubAndResolver = 0 :=
  and_bit_eq_zero e.flags 4 (by omega) e.not_resolver

theorem Export.kind_eq_regular (e : Export) :
    BitVec.ofNat 32 e.flags &&& exportSymbolFlagsKindMask = exportSymbolFlagsKindRegular := by
  apply BitVec.eq_of_toNat_eq
  have h := e.kind_regular
  have hmask : e.flags % 2 ^ 32 &&& 3 = e.flags % 2 ^ 32 % 4 :=
    Nat.and_two_pow_sub_one_eq_mod (e.flags % 2 ^ 32) 2
  calc _ = e.flags % 2 ^ 32 &&& 3 := by simp [exportSymbolFlagsKindMask]
    _ = 0 := by omega

/-! ## The lookup -/

section Lookup

variable {mem : Mem} {obj : MachObject} {info : DyldInfoCommand} {buf : List Byte}

theorem exportSize_ne_zero (h : BufferAt mem (exportStart obj info) (exportEnd obj info) buf)
    (hlen : buf.length ≠ 0) : info.exportSize ≠ 0 := by
  have hstop := h.stop_eq
  have hfits := h.fits
  unfold exportEnd at hstop
  rw [show obj.fLinkEditBase + info.exportOff = exportStart obj info from rfl,
    BitVec.add_right_inj] at hstop
  rw [hstop]
  exact ofNat_ne_zero _ hlen (by omega)

theorem exportedSymbolAddress_of_payload (hinfo : obj.fDyldInfo = some info)
    (h : BufferAt mem (exportStart obj info) (exportEnd obj info) buf) {e : Export} {off : Nat}
    {payload : List Byte} (hpayload : PayloadOf (some e) payload) (hp : payload <+: buf.drop off)
    (this : ImageId) :
    exportedSymbolAddressCompressed mem obj ⟨exportStart obj info + BitVec.ofNat 32 off, this⟩ =
      .done (obj.fHeader + BitVec.ofNat 32 e.offset) := by
  have hlen := BufferAt.piece_length hp
  have hpos := payload_length_pos hpayload
  have hat := h.toNat_at off (by omega)
  have hend := h.toNat_at _ (Nat.le_refl buf.length)
  rw [← h.stop_eq] at hend
  obtain ⟨flags, offset, rfl, hflags, hoffset⟩ := hpayload
  have hpflags : flags <+: buf.drop off := (List.prefix_append _ _).trans hp
  have hpoffset : offset <+: buf.drop (off + flags.length) := by
    obtain ⟨rest, hrest⟩ := hp
    rw [← List.drop_drop, ← hrest]
    simp
  have hinside : ¬ (exportStart obj info + BitVec.ofNat 32 off < exportStart obj info ∨
      exportEnd obj info < exportStart obj info + BitVec.ofNat 32 off) := by
    rw [BitVec.lt_def, BitVec.lt_def]
    omega
  simp only [exportedSymbolAddressCompressed, hinfo, Outcome.ofOption_some, Outcome.done_bind,
    if_neg hinside, h.readUleb128 hflags hpflags, e.kind_eq_regular, if_true, e.resolver_eq_zero,
    h.readUleb128 hoffset hpoffset, ne_eq, not_true_eq_false, if_false]
  rw [BitVec.add_comm]

/-- **Export lookup is exact.** The lookup returns, it finds exactly the strings of the trie,
and the address of what it found is the header plus the offset that the trie holds. -/
theorem findExportedSymbolCompressed_exact (hinfo : obj.fDyldInfo = some info)
    (h : BufferAt mem (exportStart obj info) (exportEnd obj info) buf) (t : Trie Byte Export)
    (hwf : t.WellFormed) (hat : NodeAt buf t 0) (this : ImageId) (symbol : CString) :
    ∃ n, ∀ fuel ≥ n, ∃ found, findExportedSymbolCompressed fuel mem this obj symbol = .done found ∧
      (found.isSome ↔ ∃ e, t.Stores symbol.bytes e) ∧
      ∀ sym, found = some sym → sym.inImage = this ∧ ∀ e, t.Stores symbol.bytes e →
        exportedSymbolAddressCompressed mem obj sym =
          .done (obj.fHeader + BitVec.ofNat 32 e.offset) := by
  refine ⟨max buf.length t.depth, fun fuel hfuel => ?_⟩
  have hsize := exportSize_ne_zero h (by have := nodeAt_lt t 0 hat; omega)
  have hwalk := trieWalk_spec h t hat symbol fuel (by omega) (by omega)
  simp only [findExportedSymbolCompressed, hinfo, Outcome.ofOption_some, Outcome.done_bind,
    if_neg hsize]
  cases hlookup : t.lookup symbol.bytes with
  | none =>
    have hnone : ∀ e, ¬ t.Stores symbol.bytes e := fun e he => by
      rw [← t.lookup_eq_some_iff hwf, hlookup] at he
      simp at he
    rw [hlookup, WalkResult] at hwalk
    refine ⟨none, ?_, by simpa using hnone, by simp⟩
    simp [hwalk]
  | some e =>
    have he := (t.lookup_eq_some_iff hwf _ _).mp hlookup
    rw [hlookup] at hwalk
    obtain ⟨off, payload, hpayload, hp, hwalk⟩ := hwalk
    have hlen := BufferAt.piece_length hp
    have hpos := payload_length_pos hpayload
    have hread : ∃ p, readUleb128 mem (exportStart obj info + BitVec.ofNat 32 off)
        (exportEnd obj info) = .done (BitVec.ofNat 32 e.flags, p) := by
      obtain ⟨flags, offset, rfl, hflags, -⟩ := id hpayload
      exact ⟨_, h.readUleb128 hflags ((List.prefix_append _ _).trans hp)⟩
    obtain ⟨p, hread⟩ := hread
    refine ⟨some ⟨exportStart obj info + BitVec.ofNat 32 off, this⟩, ?_, ?_, ?_⟩
    · simp only [hwalk, Outcome.done_bind, if_neg (h.ne_zero off (by omega)), hread,
        e.reexport_eq_zero, ne_eq, not_true_eq_false, if_false]
    · simp only [Option.isSome_some, true_iff]
      exact ⟨e, he⟩
    · rintro sym ⟨⟩
      refine ⟨rfl, fun e' he' => ?_⟩
      obtain rfl : e = e' := by
        rw [← t.lookup_eq_some_iff hwf, hlookup] at he'
        simpa using he'
      exact exportedSymbolAddress_of_payload hinfo h hpayload hp this

end Lookup

/-! ## A trie with one symbol inside another

`_a` has the offset 0x10 and `_ab` the offset 0x20.
-/

def sampleBytes : List Byte :=
  [0, 1, 0x5f, 0x61, 0, 6, 2, 0, 0x10, 1, 0x62, 0, 13, 2, 0, 0x20, 0]

def sampleExport (offset : Nat) (h : offset < 2 ^ 32) : Export := ⟨0, offset, rfl, rfl, rfl, h⟩

def sampleTrie : Trie Byte Export :=
  .node none (.cons [0x5f, 0x61]
    (.node (some (sampleExport 0x10 (by decide)))
      (.cons [0x62] (.node (some (sampleExport 0x20 (by decide))) .nil) .nil)) .nil)

def sampleMem : Mem := fun a => sampleBytes.getD (a - 0x1000).toNat 0

def sampleInfo : DyldInfoCommand := ⟨0, 0, 0x800, 17⟩

def sampleObject (header : Addr) : MachObject :=
  { MachObject.new with fLinkEditBase := 0x800, fHeader := header, fDyldInfo := some sampleInfo }

theorem sample_buffer (header : Addr) :
    BufferAt sampleMem (exportStart (sampleObject header) sampleInfo)
      (exportEnd (sampleObject header) sampleInfo) sampleBytes where
  start_ne := show (0x800 + 0x800 : Addr) ≠ 0 by decide
  fits := show (0x800 + 0x800 : Addr).toNat + sampleBytes.length < 2 ^ 32 by decide
  holds := show ∀ i (h : i < sampleBytes.length),
    sampleMem (0x800 + 0x800 + BitVec.ofNat 32 i) = sampleBytes[i] by decide
  stop_eq := show (0x800 + 0x800 + 17 : Addr) = 0x800 + 0x800 + BitVec.ofNat 32 17 by decide

theorem uleb_byte (n : Nat) (h : n < 128) : Uleb64 [BitVec.ofNat 8 n] n := by
  have hn : (BitVec.ofNat 8 n).toNat = n := by simp; omega
  have := Uleb.of_lt (BitVec.ofNat 8 n) (by omega)
  rwa [hn] at this

theorem sample_nodeAt : NodeAt sampleBytes sampleTrie 0 := by
  have leaf : NodeAt sampleBytes (.node (some (sampleExport 0x20 (by decide))) .nil) 13 :=
    ⟨[2], [0, 0x20], 0, ⟨[0], [0x20], rfl, uleb_byte 0 (by decide), uleb_byte 0x20 (by decide)⟩,
      uleb_byte 2 (by decide), rfl, by decide, trivial⟩
  refine ⟨[0], [], 1, rfl, uleb_byte 0 (by decide), rfl, by decide, ?_⟩
  refine ⟨[6], 6, uleb_byte 6 (by decide), by decide, by decide, by decide, ?_, trivial⟩
  refine ⟨[2], [0, 0x10], 1,
    ⟨[0], [0x10], rfl, uleb_byte 0 (by decide), uleb_byte 0x10 (by decide)⟩,
    uleb_byte 2 (by decide), rfl, by decide, ?_⟩
  exact ⟨[13], 13, uleb_byte 13 (by decide), by decide, by decide, by decide, leaf, trivial⟩

theorem sample_wellFormed : sampleTrie.WellFormed := by
  simp [sampleTrie, Trie.WellFormed, Edges.WellFormed, Edges.toList]

def symbolAB : CString := ⟨[0x5f, 0x61, 0x62], by decide⟩

theorem findExportedSymbolCompressed_sample :
    ∃ n, ∀ fuel ≥ n, ∃ found,
      findExportedSymbolCompressed fuel sampleMem 0 (sampleObject 0x4000) symbolAB = .done found ∧
      (found.isSome ↔ ∃ e, sampleTrie.Stores symbolAB.bytes e) ∧
      ∀ sym, found = some sym → sym.inImage = 0 ∧ ∀ e, sampleTrie.Stores symbolAB.bytes e →
        exportedSymbolAddressCompressed sampleMem (sampleObject 0x4000) sym =
          .done (0x4000 + BitVec.ofNat 32 e.offset) :=
  findExportedSymbolCompressed_exact rfl (sample_buffer _) sampleTrie sample_wellFormed
    sample_nodeAt 0 symbolAB

example : findExportedSymbolCompressed 20 sampleMem 0 (sampleObject 0x4000) symbolAB =
    .done (some ⟨0x100e, 0⟩) := by decide

end LibSystem.Lnk
