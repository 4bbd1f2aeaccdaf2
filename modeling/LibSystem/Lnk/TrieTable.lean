import LibSystem.Walk
import LibSystem.Lnk.Region

/-!
# What stands in an export table

The bytes of a table may be anything. Here it is said, without reference to the walk, what stands
at a node, which of its children a symbol passes over, and which one it goes on to. Then each part
of the walk is run with reads outside of the table as faults.
-/

namespace LibSystem.Lnk

open Outcome Access Region

/-- An export table. -/
abbrev TrieTable := Region

/-- A node, and what is left of the symbol there. -/
abbrev Place := Addr × CString

namespace TrieTable

variable (T : TrieTable)

/-- A terminal size stands at `a`, and the payload behind it. -/
def Terminal (a : Addr) (size : Word) (payload : Addr) : Prop :=
  ∃ bytes v, Uleb64 bytes v ∧ T.Shows a bytes ∧ size = BitVec.ofNat 32 v ∧
    payload = a + BitVec.ofNat 32 bytes.length

/-- Along `s` the walk passes over children: `n` are left at `a`, and `n'` at `a'`. -/
inductive Passes (s : List Byte) : Nat → Addr → Nat → Addr → Prop
  | refl (n : Nat) (a : Addr) : Passes s n a n a
  | step (n : Nat) (a : Addr) (label : CString) (offset : List Byte) (v n' : Nat) (a' : Addr)
      (hlabel : T.Shows a (label.bytes ++ [0])) (hwrong : ¬ label.bytes <+: s)
      (hoffset : Uleb offset v)
      (hshows : T.Shows (a + BitVec.ofNat 32 (label.bytes.length + 1)) offset)
      (hrest : Passes s n (a + BitVec.ofNat 32 (label.bytes.length + 1 + offset.length)) n' a') :
      Passes s (n + 1) a n' a'

/-- The walk does not stop at the node, and looks for the count of its children at `a`. -/
structure GoesBelow (c : Place) (a : Addr) : Prop where
  node_ne : c.1 ≠ 0
  terminal : ∃ size payload, T.Terminal c.1 size payload ∧ ¬ (c.2.bytes = [] ∧ size ≠ 0) ∧
    a = payload + size

/-- It comes to the child at `a`, with `n` children left. -/
def ComesTo (c : Place) (n : Nat) (a : Addr) : Prop :=
  ∃ count, T.GoesBelow c count ∧ T.Inside count ∧
    T.Passes c.2.bytes (T.mem count).toNat (count + 1) n a

/-- The first child whose label starts what is left of the symbol. -/
structure Edge (label : CString) (c c' : Place) : Prop where
  fits : label.bytes <+: c.2.bytes
  rest : c'.2.bytes = c.2.bytes.drop label.bytes.length
  child : ∃ n a offset v, T.ComesTo c (n + 1) a ∧ T.Shows a (label.bytes ++ [0]) ∧
    Uleb64 offset v ∧ T.Shows (a + BitVec.ofNat 32 (label.bytes.length + 1)) offset ∧
    c'.1 = if BitVec.ofNat 32 v ≠ 0 then T.start + BitVec.ofNat 32 v else 0

/-- The walk goes on: along an edge, or to null when no child is left. -/
inductive Leads : Place → Place → Prop
  | edge (label : CString) (c c' : Place) (h : T.Edge label c c') : Leads c c'
  | none (c : Place) (a : Addr) (h : T.ComesTo c 0 a) : Leads c (0, c.2)

/-- What the walk needs of the child at `a` is in the table. -/
def CoversChild (s : List Byte) (a : Addr) : Prop :=
  ∃ label : CString, T.Shows a (label.bytes ++ [0]) ∧ (label.bytes <+: s ∨ ∃ offset v,
    Uleb offset v ∧ T.Shows (a + BitVec.ofNat 32 (label.bytes.length + 1)) offset)

/-- What the walk reads at this place stands in the table: the node's first byte, the count of
its children, and, up to the child that it takes, each label with its terminator and each offset
with its last byte. -/
structure Covers (c : Place) : Prop where
  node : c.1 ≠ 0 → T.Inside c.1
  count : ∀ a, T.GoesBelow c a → T.Inside a
  child : ∀ n a, T.ComesTo c (n + 1) a → T.CoversChild c.2.bytes a

variable {T}

/-! ## The terminal size -/

theorem go_readTerminalSize {a payload : Addr} {size : Word} (h : T.Terminal a size payload) :
    T.go (Program.readTerminalSize a T.stop) = done ((size, payload), T.mem) := by
  obtain ⟨bytes, v, hv, hshows, rfl, rfl⟩ := h
  obtain ⟨b, bytes, rfl⟩ := List.exists_cons_of_length_pos hv.1.length_pos
  obtain ⟨hb, hin, -⟩ := shows_cons.mp hshows
  unfold Program.readTerminalSize
  rw [go_byte, if_pos hin, hb]
  split
  · exact go_readUleb128 hin.cursor hv hshows
  · obtain ⟨rfl, rfl⟩ := hv.1.head_small (by omega)
    rw [List.length_singleton, BitVec.ofNat_toNat]
    rfl

theorem go_readTerminalSize_total {a : Addr} (ha : T.Inside a) :
    (∃ size payload, T.Terminal a size payload) ∨
      ∃ msg, T.go (Program.readTerminalSize a T.stop) = .halt msg := by
  unfold Program.readTerminalSize
  rw [go_byte, if_pos ha]
  by_cases hlong : 127 < (T.mem a).toNat
  · rw [if_pos hlong]
    refine (go_readUleb128_total ha.cursor).imp_left fun ⟨bytes, v, hv, hshows⟩ => ?_
    exact ⟨_, _, bytes, v, hv, hshows, rfl, rfl⟩
  · exact Or.inl ⟨_, _, [T.mem a], _, Uleb.of_lt (T.mem a) (by omega),
      shows_cons.mpr ⟨rfl, ha, shows_nil _⟩, rfl, rfl⟩

theorem go_readTerminalSize_fault {a : Addr} (ha : ¬ T.Inside a) :
    T.go (Program.readTerminalSize a T.stop) = .fault := by
  unfold Program.readTerminalSize
  rw [go_byte, if_neg ha]

/-! ## Labels and offsets -/

theorem go_scanEdge_ne_fault {label : List Byte} (hlabel : ∀ b ∈ label, b ≠ 0) (fuel : Nat)
    (a : Addr) (ss : List Byte) (wrong : Bool) (h : T.Shows a (label ++ [0])) :
    T.go (Program.scanEdge fuel a ss wrong) ≠ .fault := by
  induction label generalizing fuel a ss wrong with
  | nil =>
    obtain ⟨h0, hin, -⟩ := shows_cons.mp h
    cases fuel with
    | zero => exact nofun
    | succ fuel =>
      rw [Program.scanEdge, go_byte, if_pos hin, if_pos h0]
      exact nofun
  | cons b label ih =>
    obtain ⟨hb, hin, hrest⟩ := shows_cons.mp h
    cases fuel with
    | zero => exact nofun
    | succ fuel =>
      have ih := ih fun x hx => hlabel x (by simp [hx])
      rw [Program.scanEdge, go_byte, if_pos hin, hb, if_neg (hlabel b (by simp))]
      split
      · exact ih _ _ _ _ hrest
      · exact ih _ _ _ _ hrest

theorem go_scanEdge {label : CString} {fuel : Nat} (hfuel : 2 ^ 32 ≤ fuel) {a : Addr}
    {s : List Byte} (hs : ∀ b ∈ s, b ≠ 0) (h : T.Shows a (label.bytes ++ [0])) :
    ∃ ss, T.go (Program.scanEdge fuel a s false) =
        done ((a + BitVec.ofNat 32 label.bytes.length, ss, decide ¬ label.bytes <+: s), T.mem) ∧
      (label.bytes <+: s → ss = s.drop label.bytes.length) := by
  have hlength := h.length_le (by simp)
  rw [List.length_append, List.length_singleton] at hlength
  obtain ⟨ss, hscan, hdrop⟩ := scanEdge_spec label.nul_free fuel a s hs h.holds
    (by have := T.stop.isLt; omega)
  refine ⟨ss, ?_, hdrop⟩
  rw [go_of_ne_fault (go_scanEdge_ne_fault label.nul_free fuel a s false h)
    (Program.runs_scanEdge _ _ _ _ _), hscan]
  rfl

theorem go_scanEdge_fault (fuel : Nat) (a : Addr) (ss : List Byte) (wrong : Bool)
    (hfuel : T.stop.toNat - a.toNat < fuel)
    (h : ∀ label : CString, ¬ T.Shows a (label.bytes ++ [0])) :
    T.go (Program.scanEdge fuel a ss wrong) = .fault := by
  induction fuel generalizing a ss wrong with
  | zero => omega
  | succ fuel ih =>
    rw [Program.scanEdge, go_byte]
    split
    · rename_i hin
      obtain ⟨hnext, hle⟩ := hin.toNat_next
      have h0 : T.mem a ≠ 0 := fun h0 =>
        h ⟨[], by simp⟩ (shows_cons.mpr ⟨h0, hin, shows_nil _⟩)
      have hrest : ∀ label : CString, ¬ T.Shows (a + 1) (label.bytes ++ [0]) := fun label hlabel =>
        h ⟨T.mem a :: label.bytes, List.forall_mem_cons.mpr ⟨h0, label.nul_free⟩⟩
          (shows_cons.mpr ⟨rfl, hin, hlabel⟩)
      rw [if_neg h0]
      split
      · exact ih _ _ _ (by omega) hrest
      · exact ih _ _ _ (by omega) hrest
    · rfl

theorem go_skipUleb_ne_fault {bytes : List Byte} {v : Nat} (hv : Uleb bytes v) (fuel : Nat)
    (a : Addr) (h : T.Shows a bytes) : T.go (Program.skipUleb fuel a) ≠ .fault := by
  induction hv generalizing fuel a with
  | last b hb =>
    obtain ⟨hat, hin, -⟩ := shows_cons.mp h
    cases fuel with
    | zero => exact nofun
    | succ fuel =>
      rw [Program.skipUleb, go_byte, if_pos hin, hat, if_neg (by rw [high_bit_iff]; omega)]
      exact nofun
  | more b bytes v hb _ ih =>
    obtain ⟨hat, hin, hrest⟩ := shows_cons.mp h
    cases fuel with
    | zero => exact nofun
    | succ fuel =>
      rw [Program.skipUleb, go_byte, if_pos hin, hat, if_pos ((high_bit_iff b).mpr hb)]
      exact ih fuel (a + 1) hrest

theorem go_skipUleb {bytes : List Byte} {v : Nat} (hv : Uleb bytes v) {fuel : Nat}
    (hfuel : 2 ^ 32 ≤ fuel) {a : Addr} (h : T.Shows a bytes) :
    ∃ q, T.go (Program.skipUleb fuel a) = done (q, T.mem) ∧
      q + 1 = a + BitVec.ofNat 32 bytes.length := by
  have hlength := h.length_le (List.ne_nil_of_length_pos hv.length_pos)
  obtain ⟨q, hskip, hq⟩ := skipUleb_spec hv fuel a h.holds (by have := T.stop.isLt; omega)
  refine ⟨q, ?_, hq⟩
  rw [go_of_ne_fault (go_skipUleb_ne_fault hv fuel a h) (Program.runs_skipUleb _ _ _), hskip]
  rfl

theorem go_skipUleb_fault (fuel : Nat) (a : Addr) (hfuel : T.stop.toNat - a.toNat < fuel)
    (h : ∀ bytes v, Uleb bytes v → ¬ T.Shows a bytes) :
    T.go (Program.skipUleb fuel a) = .fault := by
  induction fuel generalizing a with
  | zero => omega
  | succ fuel ih =>
    rw [Program.skipUleb, go_byte]
    split
    · rename_i hin
      obtain ⟨hnext, hle⟩ := hin.toNat_next
      have hmore : 128 ≤ (T.mem a).toNat := by
        by_contra hlast
        exact h _ _ (.last (T.mem a) (by omega)) (shows_cons.mpr ⟨rfl, hin, shows_nil _⟩)
      rw [if_pos ((high_bit_iff _).mpr hmore)]
      exact ih (a + 1) (by omega) fun bytes v hv hshows =>
        h _ _ (.more (T.mem a) bytes v hmore hv) (shows_cons.mpr ⟨rfl, hin, hshows⟩)
    · rfl

/-! ## The children of a node -/

section Children

variable {scan : Nat} {s : List Byte}

theorem add_succ (a : Addr) (n : Nat) : a + BitVec.ofNat 32 n + 1 = a + BitVec.ofNat 32 (n + 1) :=
  BufferAt.add_at a n 1

theorem go_walkChildren_skip (hscan : 2 ^ 32 ≤ scan) (hs : ∀ b ∈ s, b ≠ 0) {label : CString}
    {offset : List Byte} {n v : Nat} {a : Addr} (hlabel : T.Shows a (label.bytes ++ [0]))
    (hwrong : ¬ label.bytes <+: s) (hoffset : Uleb offset v)
    (hshows : T.Shows (a + BitVec.ofNat 32 (label.bytes.length + 1)) offset) :
    T.go (Program.walkChildren T.stop scan (n + 1) a s) =
      T.go (Program.walkChildren T.stop scan n
        (a + BitVec.ofNat 32 (label.bytes.length + 1 + offset.length)) s) := by
  obtain ⟨ss, hedge, -⟩ := go_scanEdge hscan hs hlabel
  obtain ⟨q, hskip, hq⟩ := go_skipUleb hoffset hscan hshows
  rw [Program.walkChildren, go_bind_done hedge]
  dsimp only
  rw [if_pos (by simpa using hwrong), add_succ, go_bind_done hskip, hq, BufferAt.add_at]

theorem go_walkChildren_passes (hscan : 2 ^ 32 ≤ scan) (hs : ∀ b ∈ s, b ≠ 0) {n n' : Nat}
    {a a' : Addr} (h : T.Passes s n a n' a') :
    T.go (Program.walkChildren T.stop scan n a s) =
      T.go (Program.walkChildren T.stop scan n' a' s) := by
  induction h with
  | refl n a => rfl
  | step n a label offset v n' a' hlabel hwrong hoffset hshows hrest ih =>
    rw [go_walkChildren_skip hscan hs hlabel hwrong hoffset hshows, ih]

theorem go_walkChildren_takes (hscan : 2 ^ 32 ≤ scan) (hs : ∀ b ∈ s, b ≠ 0) {label : CString}
    {offset : List Byte} {v : Nat} (n : Nat) {a : Addr} (hlabel : T.Shows a (label.bytes ++ [0]))
    (hfits : label.bytes <+: s) (hoffset : Uleb64 offset v)
    (hshows : T.Shows (a + BitVec.ofNat 32 (label.bytes.length + 1)) offset) :
    T.go (Program.walkChildren T.stop scan (n + 1) a s) =
      done ((BitVec.ofNat 32 v, s.drop label.bytes.length), T.mem) := by
  obtain ⟨ss, hedge, hdrop⟩ := go_scanEdge hscan hs hlabel
  have hin := (hshows.inside 0 hoffset.1.length_pos).cursor
  rw [BitVec.add_zero] at hin
  rw [Program.walkChildren, go_bind_done hedge]
  dsimp only
  rw [if_neg (by simpa using hfits), add_succ, go_bind_done (go_readUleb128 hin hoffset hshows),
    hdrop hfits]
  rfl

theorem go_walkChildren_fault (hscan : 2 ^ 32 ≤ scan) (hs : ∀ b ∈ s, b ≠ 0) (n : Nat) {a : Addr}
    (h : ¬ T.CoversChild s a) :
    T.go (Program.walkChildren T.stop scan (n + 1) a s) = .fault := by
  have hstop := T.stop.isLt
  rw [Program.walkChildren]
  by_cases hlabel : ∃ label : CString, T.Shows a (label.bytes ++ [0])
  · obtain ⟨label, hlabel⟩ := hlabel
    obtain ⟨ss, hedge, -⟩ := go_scanEdge hscan hs hlabel
    have hwrong : ¬ label.bytes <+: s := fun hfits => h ⟨label, hlabel, Or.inl hfits⟩
    rw [go_bind_done hedge]
    dsimp only
    rw [if_pos (by simpa using hwrong), add_succ]
    exact go_bind_fault (go_skipUleb_fault scan _ (by omega) fun offset v hoffset hshows =>
      h ⟨label, hlabel, Or.inr ⟨offset, v, hoffset, hshows⟩⟩) _
  · exact go_bind_fault (go_scanEdge_fault scan a s false (by omega) (not_exists.mp hlabel)) _

/-- How the walk of the children ends, at the child that it comes to. -/
inductive ChildrenEnd (T : TrieTable) (s : List Byte) : Nat → Addr → Prop
  | none (a : Addr) : ChildrenEnd T s 0 a
  | takes (n : Nat) (a : Addr) (label : CString) (offset : List Byte) (v : Nat)
      (hlabel : T.Shows a (label.bytes ++ [0])) (hfits : label.bytes <+: s)
      (hoffset : Uleb64 offset v)
      (hshows : T.Shows (a + BitVec.ofNat 32 (label.bytes.length + 1)) offset) :
      ChildrenEnd T s (n + 1) a
  | halts (n : Nat) (a : Addr) (msg : String)
      (h : ∀ scan ≥ 2 ^ 32, T.go (Program.walkChildren T.stop scan (n + 1) a s) = .halt msg) :
      ChildrenEnd T s (n + 1) a
  | leaves (n : Nat) (a : Addr) (h : ¬ T.CoversChild s a) : ChildrenEnd T s (n + 1) a

theorem children_end (hs : ∀ b ∈ s, b ≠ 0) (n : Nat) (a : Addr) :
    ∃ n' a', T.Passes s n a n' a' ∧ ChildrenEnd T s n' a' := by
  induction n generalizing a with
  | zero => exact ⟨0, a, .refl _ _, .none a⟩
  | succ n ih =>
    by_cases hcovers : T.CoversChild s a
    · obtain ⟨label, hlabel, hchild⟩ := hcovers
      by_cases hfits : label.bytes <+: s
      · have hin : T.Cursor (a + BitVec.ofNat 32 (label.bytes.length + 1)) := by
          have := (hlabel.inside label.bytes.length (by simp)).next
          rwa [add_succ] at this
        rcases go_readUleb128_total hin with ⟨offset, v, hoffset, hshows⟩ | ⟨msg, hmsg⟩
        · exact ⟨n + 1, a, .refl _ _, .takes n a label offset v hlabel hfits hoffset hshows⟩
        · refine ⟨n + 1, a, .refl _ _, .halts n a msg fun scan hscan => ?_⟩
          obtain ⟨ss, hedge, -⟩ := go_scanEdge hscan hs hlabel
          rw [Program.walkChildren, go_bind_done hedge]
          dsimp only
          rw [if_neg (by simpa using hfits), add_succ]
          exact go_bind_halt hmsg _
      · obtain ⟨offset, v, hoffset, hshows⟩ := hchild.resolve_left hfits
        obtain ⟨n', a', hpasses, hend⟩ := ih
          (a + BitVec.ofNat 32 (label.bytes.length + 1 + offset.length))
        exact ⟨n', a', .step n a label offset v n' a' hlabel hfits hoffset hshows hpasses, hend⟩
    · exact ⟨n + 1, a, .refl _ _, .leaves n a hcovers⟩

end Children

end TrieTable

end LibSystem.Lnk
