import LibSystem.Core.Tty

/-!
# The dispatch of a request

All cases of `ioctl$BRIDGE$termios`, and `ioctl$darwin` in front of it.
-/

namespace LibSystem.Core

def linuxTiocexcl : Word := 0x540c
def linuxTiocnxcl : Word := 0x540d
def linuxTiocsctty : Word := 0x540e
def linuxTiocgpgrp : Word := 0x540f
def linuxTiocspgrp : Word := 0x5410
def linuxTiocgwinsz : Word := 0x5413
def linuxTiocswinsz : Word := 0x5414
def linuxTiocmget : Word := 0x5415
def linuxTiocmbis : Word := 0x5416
def linuxTiocmbic : Word := 0x5417
def linuxTiocmset : Word := 0x5418
def linuxFionread : Word := 0x541b
def linuxTioccons : Word := 0x541d
def linuxTiocpkt : Word := 0x5420
def linuxFionbio : Word := 0x5421
def linuxTiocsbrk : Word := 0x5427
def linuxTioccbrk : Word := 0x5428
def linuxFionclex : Word := 0x5450
def linuxFioasync : Word := 0x5452

/-- With the other requests of `<sys/ioctl.h>` that have a case. -/
structure SysIoctl extends SysTty where
  (tiocstop tiocstart tiocstat : Word)
  (tiocexcl tiocgpgrp tiocnxcl tiocsctty tiocgwinsz tiocswinsz tiocspgrp tiocmget tiocmbis
   tiocmbic tiocmset fionread tioccons tiocpkt fionbio fionclex fioasync tioccbrk : Word)
  tcioflush : Word

namespace Ioctl

/-- The kernel, with requests that come with the caller's pointer, and the caller's memory. -/
structure System (nccs : Nat) (σ τ : Type) extends Kernel σ τ where
  ioctlParam : Word → Word → Addr → σ → Word × σ
  readTermios : σ → Addr → Termios nccs
  writeTermios : Addr → Termios nccs → σ → σ

/-- What `ioctl$darwin` returns, the Linux number it has sent with the kernel's answer, and the
state behind it. -/
structure Reply (σ : Type) where
  error : Word
  sent : Option (Word × Word)
  state : σ

/-- The cases that convert the termios. -/
def convertedCases (s : SysIoctl) : List (Word × Word) :=
  [(s.tiocgeta, linuxTcgets), (s.tiocseta, linuxTcsets), (s.tiocsetaw, linuxTcsetsw),
   (s.tiocsetaf, linuxTcsetsf)]

def failCases (s : SysIoctl) : List Word := [s.tiocstop, s.tiocstart, s.tiocstat]

def directCases (s : SysIoctl) : List (Word × Word) :=
  [(s.tiocexcl, linuxTiocexcl), (s.tiocgpgrp, linuxTiocgpgrp), (s.tiocnxcl, linuxTiocnxcl),
   (s.tiocsctty, linuxTiocsctty), (s.tiocgwinsz, linuxTiocgwinsz),
   (s.tiocswinsz, linuxTiocswinsz), (s.tiocspgrp, linuxTiocspgrp), (s.tiocmget, linuxTiocmget),
   (s.tiocmbis, linuxTiocmbis), (s.tiocmbic, linuxTiocmbic), (s.tiocmset, linuxTiocmset),
   (s.fionread, linuxFionread), (s.tioccons, linuxTioccons), (s.tiocpkt, linuxTiocpkt),
   (s.fionbio, linuxFionbio), (s.fionclex, linuxFionclex), (s.fioasync, linuxFioasync),
   (s.tiocsbrk, linuxTiocsbrk), (s.tioccbrk, linuxTioccbrk)]

variable {σ τ : Type}

/-- The three cases that set. -/
def bridgeSet (s : SysIoctl) (k : System s.nccs σ τ) (fd linuxRequest : Word) (param : Addr)
    (st : σ) : Reply σ :=
  let (error, _, st) := k.ioctlLinux fd linuxRequest
    (bsdToLinuxTermios s.toSysTermios (k.readTermios st param)) st
  ⟨error, some (linuxRequest, error), st⟩

/-- `ioctl$BRIDGE$termios`, with `error` and `lios` as the stack has them. -/
def bridgeTermios (s : SysIoctl) (k : System s.nccs σ τ) (fd request : Word) (param : Addr)
    (error : Word) (lios : LinuxTermios) (st : σ) : Reply σ :=
  if request = s.tiocgeta then
    let (error, lios, st) := k.ioctlLinux fd linuxTcgets lios st
    if error ≠ 0 then ⟨error, some (linuxTcgets, error), st⟩
    else
      ⟨error, some (linuxTcgets, error),
        k.writeTermios param (linuxToBsdTermios s.toSysTermios lios) st⟩
  else if request = s.tiocseta then bridgeSet s k fd linuxTcsets param st
  else if request = s.tiocsetaw then bridgeSet s k fd linuxTcsetsw param st
  else if request ∈ failCases s then ⟨-1, none, st⟩
  else if request = s.tiocsetaf then bridgeSet s k fd linuxTcsetsf param st
  else
    match (directCases s).lookup request with
    | some linuxRequest =>
      let (error, st) := k.ioctlParam fd linuxRequest param st
      ⟨error, some (linuxRequest, error), st⟩
    | none =>
      if request = s.tcioflush then ⟨error, none, st⟩
      else ⟨error, none, st⟩

/-- The range that `ioctl$darwin` looks for. -/
def InRange (s : SysIoctl) (request : Word) : Prop :=
  s.tiocmodg &&& 0xffff ≤ request &&& 0xffff ∧ request &&& 0xffff ≤ s.tiocsbrk &&& 0xffff

instance (s : SysIoctl) (request : Word) : Decidable (InRange s request) :=
  inferInstanceAs (Decidable (_ ∧ _))

/-- `ioctl$darwin`. -/
def darwin (s : SysIoctl) (k : System s.nccs σ τ) (fd request : Word) (param : Addr)
    (error : Word) (lios : LinuxTermios) (st : σ) : Reply σ :=
  if InRange s request then bridgeTermios s k fd request param error lios st
  else
    let (error, st) := k.ioctlParam fd request param st
    ⟨error, some (request, error), st⟩

/-! ## What is asked of it -/

/-- The requests that a case forwards, and the Linux numbers. -/
def forwards (s : SysIoctl) : List (Word × Word) := convertedCases s ++ directCases s

/-- The requests whose case sets `error`. -/
def handled (s : SysIoctl) : List Word := (forwards s).map Prod.fst ++ failCases s

/-- A switch has a label once, and a Darwin request has a direction in its highest bits. -/
structure Encoded (s : SysIoctl) : Prop where
  labels : (s.tcioflush :: handled s).Nodup
  direction : ∀ p ∈ forwards s, p.1 &&& 0xe0000000 ≠ 0

/-- The kernel's answer or an error code is returned, and the kernel sees the Linux number. -/
structure Dispatched (s : SysIoctl) (request : Word) : Prop where
  returned : ∀ {σ τ : Type} (k : System s.nccs σ τ) (fd : Word) (param : Addr) (error : Word)
    (lios : LinuxTermios) (st : σ),
    (∃ number, (darwin s k fd request param error lios st).sent =
      some (number, (darwin s k fd request param error lios st).error)) ∨
    (darwin s k fd request param error lios st).error = -1
  numbered : ∀ linuxRequest, (request, linuxRequest) ∈ forwards s →
    ∀ {σ τ : Type} (k : System s.nccs σ τ) (fd : Word) (param : Addr) (error : Word)
      (lios : LinuxTermios) (st : σ),
      (∃ answer, (darwin s k fd request param error lios st).sent = some (linuxRequest, answer)) ∧
      ∀ answer, (darwin s k fd request param error lios st).sent ≠ some (request, answer)

/-! ## The cases -/

theorem lookup_of_mem {α β : Type} [DecidableEq α] {pairs : List (α × β)}
    (nodup : (pairs.map Prod.fst).Nodup) {a : α} {b : β} (h : (a, b) ∈ pairs) :
    pairs.lookup a = some b := by
  induction pairs with
  | nil => cases h
  | cons p pairs ih =>
    rw [List.map_cons, List.nodup_cons] at nodup
    rcases List.mem_cons.mp h with rfl | h
    · exact List.lookup_cons_self
    · have hmem : a ∈ pairs.map Prod.fst := List.mem_map_of_mem h
      have hne : a ≠ p.1 := fun heq => nodup.1 (heq ▸ hmem)
      rw [List.lookup_cons, beq_false_of_ne hne]
      exact ih nodup.2 h

theorem lookup_of_notMem {α β : Type} [DecidableEq α] {pairs : List (α × β)} {a : α}
    (h : a ∉ pairs.map Prod.fst) : pairs.lookup a = none := by
  rw [List.lookup_eq_none_iff]
  intro p hp
  rw [bne_iff_ne]
  rintro rfl
  exact h (List.mem_map_of_mem (f := Prod.fst) hp)

theorem linux_undirected {s : SysIoctl} {p : Word × Word} (h : p ∈ forwards s) :
    p.2 &&& 0xe0000000 = 0 := by
  have hnumbers : (forwards s).map Prod.snd =
      [linuxTcgets, linuxTcsets, linuxTcsetsw, linuxTcsetsf, linuxTiocexcl, linuxTiocgpgrp,
       linuxTiocnxcl, linuxTiocsctty, linuxTiocgwinsz, linuxTiocswinsz, linuxTiocspgrp,
       linuxTiocmget, linuxTiocmbis, linuxTiocmbic, linuxTiocmset, linuxFionread,
       linuxTioccons, linuxTiocpkt, linuxFionbio, linuxFionclex, linuxFioasync,
       linuxTiocsbrk, linuxTioccbrk] := rfl
  have hall : ∀ number ∈ (forwards s).map Prod.snd, number &&& 0xe0000000 = 0 := by
    rw [hnumbers]
    simp only [List.forall_mem_cons, List.not_mem_nil, false_imp_iff, implies_true, and_true]
    decide
  exact hall p.2 (List.mem_map_of_mem h)

section

variable {s : SysIoctl} {k : System s.nccs σ τ} {fd request error : Word} {param : Addr}
  {lios : LinuxTermios} {st : σ}

theorem Encoded.apart (hs : Encoded s) :
    (∀ a ∈ (convertedCases s).map Prod.fst, a ∉ (directCases s).map Prod.fst ∧ a ∉ failCases s) ∧
    (∀ a ∈ (directCases s).map Prod.fst, a ∉ failCases s) ∧
    ((convertedCases s).map Prod.fst).Nodup ∧ ((directCases s).map Prod.fst).Nodup := by
  have hlabels := (List.nodup_cons.mp hs.labels).2
  rw [handled, forwards, List.map_append, List.nodup_append, List.nodup_append] at hlabels
  obtain ⟨⟨hconverted, hdirect, hcd⟩, -, hfail⟩ := hlabels
  refine ⟨fun a ha => ⟨fun h => hcd a ha a h rfl, fun h => ?_⟩, fun a ha h => ?_, hconverted,
    hdirect⟩
  · exact hfail a (List.mem_append_left _ ha) a h rfl
  · exact hfail a (List.mem_append_right _ ha) a h rfl

theorem notMem_converted : request ∉ (convertedCases s).map Prod.fst ↔
    request ≠ s.tiocgeta ∧ request ≠ s.tiocseta ∧ request ≠ s.tiocsetaw ∧
      request ≠ s.tiocsetaf := by
  simp [convertedCases]

theorem Encoded.converted_ne (hs : Encoded s) :
    s.tiocseta ≠ s.tiocgeta ∧ (s.tiocsetaw ≠ s.tiocgeta ∧ s.tiocsetaw ≠ s.tiocseta) ∧
      s.tiocsetaf ≠ s.tiocgeta ∧ s.tiocsetaf ≠ s.tiocseta ∧ s.tiocsetaf ≠ s.tiocsetaw := by
  obtain ⟨-, -, hdistinct, -⟩ := hs.apart
  simp only [convertedCases, List.map_cons, List.map_nil, List.nodup_cons, List.mem_cons,
    not_or] at hdistinct
  obtain ⟨⟨hga, hgw, hgf, -⟩, ⟨haw, haf, -⟩, ⟨hwf, -⟩, -⟩ := hdistinct
  exact ⟨Ne.symm hga, ⟨Ne.symm hgw, Ne.symm haw⟩, Ne.symm hgf, Ne.symm haf, Ne.symm hwf⟩

theorem bridgeSet_answered (linuxRequest : Word) :
    (bridgeSet s k fd linuxRequest param st).sent =
      some (linuxRequest, (bridgeSet s k fd linuxRequest param st).error) :=
  rfl

theorem bridge_converted (hs : Encoded s) {linuxRequest : Word}
    (h : (request, linuxRequest) ∈ convertedCases s) :
    (bridgeTermios s k fd request param error lios st).sent =
      some (linuxRequest, (bridgeTermios s k fd request param error lios st).error) := by
  obtain ⟨hothers, -⟩ := hs.apart
  obtain ⟨hag, ⟨hwg, hwa⟩, hfg, hfa, hfw⟩ := hs.converted_ne
  have hfail := (hothers request (List.mem_map_of_mem h)).2
  simp only [convertedCases, List.mem_cons, Prod.mk.injEq, List.not_mem_nil, or_false] at h
  rcases h with ⟨rfl, rfl⟩ | ⟨rfl, rfl⟩ | ⟨rfl, rfl⟩ | ⟨rfl, rfl⟩
  · rw [bridgeTermios, if_pos rfl]
    dsimp only
    split <;> rfl
  · rw [bridgeTermios, if_neg hag, if_pos rfl]
    exact bridgeSet_answered linuxTcsets
  · rw [bridgeTermios, if_neg hwg, if_neg hwa, if_pos rfl]
    exact bridgeSet_answered linuxTcsetsw
  · rw [bridgeTermios, if_neg hfg, if_neg hfa, if_neg hfw,
      if_neg hfail, if_pos rfl]
    exact bridgeSet_answered linuxTcsetsf

theorem bridge_past (hconverted : request ∉ (convertedCases s).map Prod.fst)
    (hfail : request ∉ failCases s) :
    bridgeTermios s k fd request param error lios st =
      match (directCases s).lookup request with
      | some linuxRequest =>
        let (error, st) := k.ioctlParam fd linuxRequest param st
        ⟨error, some (linuxRequest, error), st⟩
      | none =>
        if request = s.tcioflush then ⟨error, none, st⟩
        else ⟨error, none, st⟩ := by
  obtain ⟨hg, ha, hw, hf⟩ := notMem_converted.mp hconverted
  rw [bridgeTermios, if_neg hg, if_neg ha, if_neg hw, if_neg hfail, if_neg hf]

theorem bridge_forwards (hs : Encoded s) {linuxRequest : Word}
    (h : (request, linuxRequest) ∈ forwards s) :
    (bridgeTermios s k fd request param error lios st).sent =
      some (linuxRequest, (bridgeTermios s k fd request param error lios st).error) := by
  rcases List.mem_append.mp h with h | h
  · exact bridge_converted hs h
  · obtain ⟨hothers, hfail, -, hdirect⟩ := hs.apart
    have hmem : request ∈ (directCases s).map Prod.fst := List.mem_map_of_mem h
    rw [bridge_past (fun hc => (hothers request hc).1 hmem) (hfail request hmem),
      lookup_of_mem hdirect h]

theorem bridge_fails (hs : Encoded s) (h : request ∈ failCases s) :
    bridgeTermios s k fd request param error lios st = ⟨-1, none, st⟩ := by
  obtain ⟨hothers, -⟩ := hs.apart
  have hconverted : request ∉ (convertedCases s).map Prod.fst :=
    fun hc => (hothers request hc).2 h
  obtain ⟨hg, ha, hw, hf⟩ := notMem_converted.mp hconverted
  rw [bridgeTermios, if_neg hg, if_neg ha, if_neg hw, if_pos h]

theorem bridge_unset (h : request ∉ handled s) :
    bridgeTermios s k fd request param error lios st = ⟨error, none, st⟩ := by
  rw [handled, forwards, List.map_append, List.mem_append, List.mem_append, not_or, not_or] at h
  obtain ⟨⟨hconverted, hdirect⟩, hfail⟩ := h
  rw [bridge_past hconverted hfail, lookup_of_notMem hdirect]
  exact ite_self _

theorem darwin_inside (h : InRange s request) :
    darwin s k fd request param error lios st =
      bridgeTermios s k fd request param error lios st :=
  if_pos h

theorem darwin_outside (h : ¬InRange s request) :
    (darwin s k fd request param error lios st).sent =
      some (request, (darwin s k fd request param error lios st).error) := by
  rw [darwin, if_neg h]

end

/-- A kernel that says 0 to everything. -/
def quiet (nccs : Nat) : System nccs Unit Unit where
  ioctlLinux _ _ lios st := (0, lios, st)
  setErrno _ st := st
  terminal _ _ := none
  settings _ _ := ⟨0, 0, 0, 0, 0, fun _ => 0⟩
  ioctlParam _ _ _ st := (0, st)
  readTermios _ _ := ⟨0, 0, 0, 0, fun _ => 0, 0, 0⟩
  writeTermios _ _ st := st

section

variable {s : SysIoctl} {request : Word}

theorem unset_not_returned (hrange : InRange s request) (h : request ∉ handled s) :
    ¬Dispatched s request := by
  intro hd
  have hreturned := hd.returned (quiet s.nccs) 0 0 0 ⟨0, 0, 0, 0, 0, fun _ => 0⟩ ()
  rw [darwin_inside hrange, bridge_unset h] at hreturned
  obtain ⟨number, hsent⟩ | herror := hreturned
  · cases hsent
  · exact absurd herror (by decide)

theorem outside_not_numbered (hrange : ¬InRange s request)
    (h : request ∈ (forwards s).map Prod.fst) : ¬Dispatched s request := by
  intro hd
  obtain ⟨p, hp, rfl⟩ := List.mem_map.mp h
  have hnever := (hd.numbered p.2 hp (quiet s.nccs) 0 0 0 ⟨0, 0, 0, 0, 0, fun _ => 0⟩ ()).2
  exact hnever _ (darwin_outside hrange)

theorem dispatched_inside (hs : Encoded s) (hrange : InRange s request)
    (h : request ∈ handled s) : Dispatched s request where
  returned k fd param error lios st := by
    rw [darwin_inside hrange]
    rcases List.mem_append.mp h with hforwards | hfails
    · obtain ⟨p, hp, rfl⟩ := List.mem_map.mp hforwards
      exact .inl ⟨p.2, bridge_forwards hs hp⟩
    · right
      rw [bridge_fails hs hfails]
  numbered linuxRequest hmem _ _ k fd param error lios st := by
    rw [darwin_inside hrange, bridge_forwards hs hmem]
    refine ⟨⟨_, rfl⟩, fun answer heq => ?_⟩
    rw [Option.some.injEq, Prod.mk.injEq] at heq
    refine hs.direction _ hmem ?_
    change request &&& 0xe0000000 = 0
    rw [← heq.1]
    exact linux_undirected hmem

theorem dispatched_outside (hrange : ¬InRange s request)
    (h : request ∉ (forwards s).map Prod.fst) : Dispatched s request where
  returned _ _ _ _ _ _ := .inl ⟨request, darwin_outside hrange⟩
  numbered _ hmem := absurd (List.mem_map_of_mem hmem) h

/-- Within the range a request needs a case that sets `error`; outside of it, none that forwards
it. -/
theorem dispatched_iff (s : SysIoctl) (hs : Encoded s) (request : Word) :
    Dispatched s request ↔
      (InRange s request → request ∈ handled s) ∧
      (request ∈ (forwards s).map Prod.fst → InRange s request) := by
  constructor
  · intro hd
    constructor
    · intro hrange
      by_contra h
      exact unset_not_returned hrange h hd
    · intro h
      by_contra hrange
      exact outside_not_numbered hrange h hd
  · rintro ⟨hinside, houtside⟩
    by_cases hrange : InRange s request
    · exact dispatched_inside hs hrange (hinside hrange)
    · exact dispatched_outside hrange fun h => hrange (houtside h)

end

/-! ## Values -/

/-- The values the header has. -/
def sysIoctl : SysIoctl where
  toSysTty := sysTty
  tiocstop := 0x2000746f
  tiocstart := 0x2000746e
  tiocstat := 0x20007465
  tiocexcl := 0x2000740d
  tiocgpgrp := 0x40047477
  tiocnxcl := 0x2000740e
  tiocsctty := 0x20007461
  tiocgwinsz := 0x40087468
  tiocswinsz := 0x80087467
  tiocspgrp := 0x80047476
  tiocmget := 0x4004746a
  tiocmbis := 0x8004746c
  tiocmbic := 0x8004746b
  tiocmset := 0x8004746d
  fionread := 0x4004667f
  tioccons := 0x80047462
  tiocpkt := 0x80047470
  fionbio := 0x8004667e
  fionclex := 0x20006602
  fioasync := 0x8004667d
  tioccbrk := 0x2000747a
  tcioflush := 3

theorem sysIoctl_encoded : Encoded sysIoctl where
  labels := by decide +kernel
  direction := by
    simp only [forwards, convertedCases, directCases, List.cons_append, List.nil_append,
      List.forall_mem_cons, List.not_mem_nil, false_imp_iff, implies_true, and_true]
    decide

/-- The size of a window is asked for in Linux's words. -/
theorem dispatched_gwinsz : Dispatched sysIoctl sysIoctl.tiocgwinsz :=
  (dispatched_iff sysIoctl sysIoctl_encoded sysIoctl.tiocgwinsz).mpr (by decide +kernel)

/-- `TIOCDRAIN` has no case, and `FIONREAD` is of another group than the range. -/
theorem drain_fionread_not_dispatched :
    ¬Dispatched sysIoctl 0x2000745e ∧ ¬Dispatched sysIoctl sysIoctl.fionread :=
  ⟨unset_not_returned (by decide +kernel) (by decide +kernel),
    outside_not_numbered (by decide +kernel) (by decide +kernel)⟩

end Ioctl

end LibSystem.Core
