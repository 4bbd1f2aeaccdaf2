import LibSystem.Core.Termios

/-!
# Reading and writing the settings of a terminal

`tcgetattr` and `tcsetattr` of `core/tty.c`, and the requests they make of the kernel by way of
`core/darwin_ioctl.c`.
-/

namespace LibSystem.Core

def linuxTcgets : Word := 0x5401
def linuxTcsets : Word := 0x5402
def linuxTcsetsw : Word := 0x5403
def linuxTcsetsf : Word := 0x5404

/-- With the constants of requests, options and errors. -/
structure SysTty extends SysTermios where
  (tiocgeta tiocseta tiocsetaw tiocsetaf tiocmodg tiocsbrk : Word)
  (tcsanow tcsadrain tcsaflush tcsasoft : Word)
  einval : Word

/-- What lies below: the kernel, with `errno`. -/
structure Kernel (σ τ : Type) where
  /-- `ioctl$LINUX`: what it returns, and the buffer and the state behind it. -/
  ioctlLinux : Word → Word → LinuxTermios → σ → Word × LinuxTermios × σ
  setErrno : Word → σ → σ
  terminal : σ → Word → Option τ
  settings : σ → τ → LinuxTermios

variable {σ τ : Type}

/-- The three requests that set: the settings are turned round and handed on. -/
def ioctlSet (s : SysTty) (k : Kernel σ τ) (fd linuxRequest : Word) (param : Termios s.nccs)
    (st : σ) : Option (Word × Termios s.nccs × σ) :=
  let (error, _, st) := k.ioctlLinux fd linuxRequest (bsdToLinuxTermios s.toSysTermios param) st
  some (error, param, st)

/-- `ioctl$BRIDGE$termios`, with `lios` as the stack has it. The other requests come with no
termios. -/
def ioctlBridgeTermios (s : SysTty) (k : Kernel σ τ) (fd request : Word) (param : Termios s.nccs)
    (lios : LinuxTermios) (st : σ) : Option (Word × Termios s.nccs × σ) :=
  if request = s.tiocgeta then
    let (error, lios, st) := k.ioctlLinux fd linuxTcgets lios st
    if error ≠ 0 then some (error, param, st)
    else some (error, linuxToBsdTermios s.toSysTermios lios, st)
  else if request = s.tiocseta then ioctlSet s k fd linuxTcsets param st
  else if request = s.tiocsetaw then ioctlSet s k fd linuxTcsetsw param st
  else if request = s.tiocsetaf then ioctlSet s k fd linuxTcsetsf param st
  else none

/-- `ioctl$darwin`. Outside the range the kernel would see the request as it is. -/
def ioctlDarwin (s : SysTty) (k : Kernel σ τ) (fd request : Word) (param : Termios s.nccs)
    (lios : LinuxTermios) (st : σ) : Option (Word × Termios s.nccs × σ) :=
  let cmd := request &&& 0xffff
  if s.tiocmodg &&& 0xffff ≤ cmd ∧ cmd ≤ s.tiocsbrk &&& 0xffff then
    ioctlBridgeTermios s k fd request param lios st
  else none

def tcgetattr (s : SysTty) (k : Kernel σ τ) (fd : Word) (bios : Termios s.nccs)
    (lios : LinuxTermios) (st : σ) : Option (Word × Termios s.nccs × σ) :=
  ioctlDarwin s k fd s.tiocgeta bios lios st

/-- What the caller of `tcsetattr` sees: its own termios is untouched. -/
def result {α : Type} (r : Word × α × σ) : Word × σ := (r.1, r.2.2)

/-- The local copy that `TCSASOFT` asks for. -/
def softened (s : SysTty) (opt : Word) (t : Termios s.nccs) : Termios s.nccs :=
  if opt &&& s.tcsasoft ≠ 0 then { t with cCflag := t.cCflag ||| s.cignore } else t

def tcsetattr (s : SysTty) (k : Kernel σ τ) (fd opt : Word) (t : Termios s.nccs)
    (lios : LinuxTermios) (st : σ) : Option (Word × σ) :=
  let t := softened s opt t
  if opt &&& ~~~s.tcsasoft = s.tcsanow then (ioctlDarwin s k fd s.tiocseta t lios st).map result
  else if opt &&& ~~~s.tcsasoft = s.tcsadrain then
    (ioctlDarwin s k fd s.tiocsetaw t lios st).map result
  else if opt &&& ~~~s.tcsasoft = s.tcsaflush then
    (ioctlDarwin s k fd s.tiocsetaf t lios st).map result
  else some (-1, k.setErrno s.einval st)

/-! ## What the constants and the kernel promise -/

def SysTty.requests (s : SysTty) : List Word := [s.tiocgeta, s.tiocseta, s.tiocsetaw, s.tiocsetaf]

structure SysTty.Documented (s : SysTty) : Prop where
  termios : s.toSysTermios.Documented
  distinct : s.requests.Nodup
  inRange : ∀ r ∈ s.requests,
    s.tiocmodg &&& 0xffff ≤ r &&& 0xffff ∧ r &&& 0xffff ≤ s.tiocsbrk &&& 0xffff

/-- A terminal's settings can be read, and are what was last set. -/
structure Kernel.Documented (k : Kernel σ τ) : Prop where
  gets : ∀ {st fd t}, k.terminal st fd = some t → ∀ lios, ∃ st',
    k.ioctlLinux fd linuxTcgets lios st = (0, k.settings st t, st') ∧
      k.terminal st' = k.terminal st ∧ k.settings st' = k.settings st
  sets : ∀ {st fd t}, k.terminal st fd = some t →
    ∀ request ∈ [linuxTcsets, linuxTcsetsw, linuxTcsetsf], ∀ lios, ∃ st',
      k.ioctlLinux fd request lios st = (0, lios, st') ∧
        k.settings st' t = lios ∧ ∀ t' ≠ t, k.settings st' t' = k.settings st t'
  setErrno : ∀ e st, k.settings (k.setErrno e st) = k.settings st

/-! ## One request -/

section

variable {s : SysTty} {k : Kernel σ τ} {st : σ} {fd : Word} {t : τ}

theorem ioctlDarwin_of_mem (hs : s.Documented) {request : Word} (h : request ∈ s.requests)
    (param : Termios s.nccs) (lios : LinuxTermios) :
    ioctlDarwin s k fd request param lios st = ioctlBridgeTermios s k fd request param lios st :=
  if_pos (hs.inRange request h)

theorem tcgetattr_eq (hs : s.Documented) (hk : k.Documented) (hterm : k.terminal st fd = some t)
    (bios : Termios s.nccs) (lios : LinuxTermios) :
    ∃ st', tcgetattr s k fd bios lios st =
        some (0, linuxToBsdTermios s.toSysTermios (k.settings st t), st') ∧
      k.terminal st' = k.terminal st ∧ k.settings st' = k.settings st := by
  obtain ⟨st', hget, hsame⟩ := hk.gets hterm lios
  refine ⟨st', ?_, hsame⟩
  unfold tcgetattr
  rw [ioctlDarwin_of_mem hs (List.mem_cons_self ..), ioctlBridgeTermios, if_pos rfl, hget]
  rfl

theorem ioctlSet_same (hk : k.Documented) (hterm : k.terminal st fd = some t)
    {param : Termios s.nccs}
    (hsame : bsdToLinuxTermios s.toSysTermios param = k.settings st t) {request : Word}
    (hrequest : request ∈ [linuxTcsets, linuxTcsetsw, linuxTcsetsf]) :
    ∃ st', ioctlSet s k fd request param st = some (0, param, st') ∧
      k.settings st' = k.settings st := by
  obtain ⟨st', hset, hself, hothers⟩ := hk.sets hterm request hrequest (k.settings st t)
  refine ⟨st', ?_, ?_⟩
  · rw [ioctlSet, hsame, hset]
  · funext t'
    by_cases ht : t' = t
    · rw [ht, hself]
    · exact hothers t' ht

theorem ioctlDarwin_set (hs : s.Documented) {request linuxRequest : Word}
    (h : (request, linuxRequest) ∈ [(s.tiocseta, linuxTcsets), (s.tiocsetaw, linuxTcsetsw),
      (s.tiocsetaf, linuxTcsetsf)]) (param : Termios s.nccs) (lios : LinuxTermios) :
    ioctlDarwin s k fd request param lios st = ioctlSet s k fd linuxRequest param st := by
  have hdistinct := hs.distinct
  simp only [SysTty.requests, List.nodup_cons, List.mem_cons, not_or] at hdistinct
  obtain ⟨⟨hga, hgw, hgf, -⟩, ⟨haw, haf, -⟩, ⟨hwf, -⟩, -⟩ := hdistinct
  simp only [List.mem_cons, Prod.mk.injEq, List.not_mem_nil, or_false] at h
  rcases h with ⟨rfl, rfl⟩ | ⟨rfl, rfl⟩ | ⟨rfl, rfl⟩
  · rw [ioctlDarwin_of_mem hs (by simp [SysTty.requests]), ioctlBridgeTermios,
      if_neg (Ne.symm hga), if_pos rfl]
  · rw [ioctlDarwin_of_mem hs (by simp [SysTty.requests]), ioctlBridgeTermios,
      if_neg (Ne.symm hgw), if_neg (Ne.symm haw), if_pos rfl]
  · rw [ioctlDarwin_of_mem hs (by simp [SysTty.requests]), ioctlBridgeTermios,
      if_neg (Ne.symm hgf), if_neg (Ne.symm haf), if_neg (Ne.symm hwf), if_pos rfl]

theorem request_same (hs : s.Documented) (hk : k.Documented) (hterm : k.terminal st fd = some t)
    {param : Termios s.nccs}
    (hsame : bsdToLinuxTermios s.toSysTermios param = k.settings st t)
    {request linuxRequest : Word}
    (h : (request, linuxRequest) ∈ [(s.tiocseta, linuxTcsets), (s.tiocsetaw, linuxTcsetsw),
      (s.tiocsetaf, linuxTcsetsf)]) (lios : LinuxTermios) :
    ∃ st', (ioctlDarwin s k fd request param lios st).map result = some (0, st') ∧
      k.settings st' = k.settings st := by
  have hlinux : linuxRequest ∈ [linuxTcsets, linuxTcsetsw, linuxTcsetsf] :=
    (List.mem_map_of_mem h : (request, linuxRequest).2 ∈ List.map Prod.snd _)
  obtain ⟨st', hset, hkept⟩ := ioctlSet_same hk hterm hsame hlinux
  refine ⟨st', ?_, hkept⟩
  rw [ioctlDarwin_set hs h, hset]
  rfl

theorem bsdToLinux_softened (hs : s.Documented) (opt : Word) (bios : Termios s.nccs) :
    bsdToLinuxTermios s.toSysTermios (softened s opt bios) =
      bsdToLinuxTermios s.toSysTermios bios := by
  unfold softened
  split
  · exact bsdToLinux_cignore hs.termios bios
  · rfl

theorem tcsetattr_same (hs : s.Documented) (hk : k.Documented) (hterm : k.terminal st fd = some t)
    {bios : Termios s.nccs}
    (hsame : bsdToLinuxTermios s.toSysTermios bios = k.settings st t) (opt : Word)
    (lios : LinuxTermios) :
    ∃ r st', tcsetattr s k fd opt bios lios st = some (r, st') ∧
      k.settings st' = k.settings st ∧
      (opt &&& ~~~s.tcsasoft ∈ [s.tcsanow, s.tcsadrain, s.tcsaflush] → r = 0) := by
  have hset := (bsdToLinux_softened hs opt bios).trans hsame
  have hzero : ∀ {r : Option (Word × σ)},
      (∃ st', r = some (0, st') ∧ k.settings st' = k.settings st) →
      ∃ e st', r = some (e, st') ∧ k.settings st' = k.settings st ∧
        (opt &&& ~~~s.tcsasoft ∈ [s.tcsanow, s.tcsadrain, s.tcsaflush] → e = 0) := by
    rintro r ⟨st', hr, hkept⟩
    exact ⟨0, st', hr, hkept, fun _ => rfl⟩
  simp only [tcsetattr]
  by_cases hnow : opt &&& ~~~s.tcsasoft = s.tcsanow
  · rw [if_pos hnow]
    exact hzero (request_same hs hk hterm hset (List.mem_cons_self ..) lios)
  rw [if_neg hnow]
  by_cases hdrain : opt &&& ~~~s.tcsasoft = s.tcsadrain
  · rw [if_pos hdrain]
    exact hzero (request_same hs hk hterm hset
      (List.mem_cons_of_mem _ (List.mem_cons_self ..)) lios)
  rw [if_neg hdrain]
  by_cases hflush : opt &&& ~~~s.tcsasoft = s.tcsaflush
  · rw [if_pos hflush]
    exact hzero (request_same hs hk hterm hset
      (List.mem_cons_of_mem _ (List.mem_cons_of_mem _ (List.mem_cons_self ..))) lios)
  rw [if_neg hflush]
  refine ⟨-1, k.setErrno s.einval st, rfl, hk.setErrno s.einval st, fun hmem => ?_⟩
  simp [hnow, hdrain, hflush] at hmem

end

/-! ## Values -/

/-- The values the header has. -/
def sysTty : SysTty where
  nccs := 20
  ignbrk := 0x1
  brkint := 0x2
  ignpar := 0x4
  parmrk := 0x8
  inpck := 0x10
  istrip := 0x20
  inlcr := 0x40
  igncr := 0x80
  icrnl := 0x100
  ixon := 0x200
  ixoff := 0x400
  ixany := 0x800
  imaxbel := 0x2000
  opost := 0x1
  onlcr := 0x2
  tab3 := 0x4
  cignore := 0x1
  csize := 0x300
  cstopb := 0x400
  cread := 0x800
  parenb := 0x1000
  parodd := 0x2000
  hupcl := 0x4000
  clocal := 0x8000
  crtscts := 0x30000
  echoke := 0x1
  echoe := 0x2
  echok := 0x4
  echo := 0x8
  echonl := 0x10
  echoprt := 0x20
  echoctl := 0x40
  isig := 0x80
  icanon := 0x100
  iexten := 0x400
  tostop := 0x400000
  flusho := 0x800000
  pendin := 0x20000000
  noflsh := 0x80000000
  veof := 0
  veol := 1
  veol2 := 2
  verase := 3
  vwerase := 4
  vkill := 5
  vreprint := 6
  vintr := 8
  vquit := 9
  vsusp := 10
  vstart := 12
  vstop := 13
  vlnext := 14
  vdiscard := 15
  vmin := 16
  vtime := 17
  posixVdisable := 0xff
  b0 := 0
  b50 := 50
  b75 := 75
  b110 := 110
  b134 := 134
  b150 := 150
  b200 := 200
  b300 := 300
  b600 := 600
  b1200 := 1200
  b1800 := 1800
  b2400 := 2400
  b4800 := 4800
  b9600 := 9600
  b19200 := 19200
  b38400 := 38400
  b57600 := 57600
  b115200 := 115200
  tiocgeta := 0x402c7413
  tiocseta := 0x802c7414
  tiocsetaw := 0x802c7415
  tiocsetaf := 0x802c7416
  tiocmodg := 0x40047403
  tiocsbrk := 0x2000747b
  tcsanow := 0
  tcsadrain := 1
  tcsaflush := 2
  tcsasoft := 0x10
  einval := 22

theorem apart_of_notMem {masks : List Word} (nonzero : 0 ∉ masks)
    (disjoint : masks.Pairwise fun a b => a &&& b = 0) : Flags.Apart masks :=
  ⟨fun _ hm hzero => nonzero (hzero ▸ hm), disjoint⟩

theorem sysTty_documented : sysTty.Documented where
  termios :=
    { iflags := apart_of_notMem (by decide) (by decide +kernel)
      oflags := apart_of_notMem (by decide) (by decide +kernel)
      cflags := apart_of_notMem (by decide) (by decide +kernel)
      lflags := apart_of_notMem (by decide) (by decide +kernel)
      csize := rfl
      ccs := by decide +kernel
      posixVdisable := rfl
      speeds := by decide +kernel }
  distinct := by decide
  inRange := by
    simp only [SysTty.requests, List.forall_mem_cons]
    exact ⟨by decide, by decide, by decide, by decide, by simp⟩

/-- One terminal, whose settings are all there is. -/
def oneTerminal : Kernel LinuxTermios Unit where
  ioctlLinux _ request lios st :=
    if request = linuxTcgets then (0, st, st) else (0, lios, lios)
  setErrno _ st := st
  terminal _ _ := some ()
  settings st _ := st

theorem oneTerminal_documented : oneTerminal.Documented where
  gets _ _ := ⟨_, rfl, rfl, rfl⟩
  sets _ request hrequest lios := by
    have hne : request ≠ linuxTcgets := by
      rintro rfl
      revert hrequest
      decide
    exact ⟨lios, if_neg hne, rfl, fun t' ht' => absurd rfl ht'⟩
  setErrno _ _ := rfl

/-- A terminal in canonical mode at 38400 baud. -/
def saneTermios : LinuxTermios where
  cIflag := 0x500
  cOflag := 0x1805
  cCflag := 0xbf
  cLflag := 0x8a3b
  cLine := 0
  cCc i := [0x03, 0x1c, 0x7f, 0x15, 0x04, 0x00, 0x01, 0x00, 0x11, 0x13, 0x1a, 0x00, 0x12, 0x0f,
    0x17, 0x16, 0x00, 0x00, 0x00].getD i.val 0

theorem saneTermios_known : saneTermios.Known sysTty.toSysTermios where
  iflag := by decide
  oflag := by decide
  xtabs := by decide
  cflag := by decide
  speed := ⟨⟨38400, 0xf⟩, by decide, by decide⟩
  lflag := by decide
  line := rfl
  unused := by decide
  plain := by decide

/-! ## Read and write back -/

/-- Settings that are all known survive the way to the caller and back, and writing back what was
read changes no terminal. -/
theorem termios_kept (s : SysTty) (hs : s.Documented) (l : LinuxTermios)
    (hl : l.Known s.toSysTermios) :
    bsdToLinuxTermios s.toSysTermios (linuxToBsdTermios s.toSysTermios l) = l ∧
      ∀ (k : Kernel σ τ), k.Documented → ∀ st fd t, k.terminal st fd = some t →
        k.settings st t = l → ∀ bios lios, ∃ read st',
          tcgetattr s k fd bios lios st = some (0, read, st') ∧
          ∀ opt lios', ∃ r st'', tcsetattr s k fd opt read lios' st' = some (r, st'') ∧
            k.settings st'' = k.settings st ∧
            (opt &&& ~~~s.tcsasoft ∈ [s.tcsanow, s.tcsadrain, s.tcsaflush] → r = 0) := by
  refine ⟨linuxToBsd_back hs.termios hl, ?_⟩
  intro k hk st fd t hterm hsettings bios lios
  obtain ⟨st', hget, hterminal, hread⟩ := tcgetattr_eq hs hk hterm bios lios
  rw [hsettings] at hget
  refine ⟨linuxToBsdTermios s.toSysTermios l, st', hget, ?_⟩
  intro opt lios'
  have hterm' : k.terminal st' fd = some t := by rw [hterminal, hterm]
  have hback : bsdToLinuxTermios s.toSysTermios (linuxToBsdTermios s.toSysTermios l) =
      k.settings st' t := by
    rw [linuxToBsd_back hs.termios hl, hread, hsettings]
  obtain ⟨r, st'', hset, hkept, hzero⟩ := tcsetattr_same hs hk hterm' hback opt lios'
  exact ⟨r, st'', hset, hkept.trans hread, hzero⟩

theorem termios_kept_sane :
    bsdToLinuxTermios sysTty.toSysTermios
      (linuxToBsdTermios sysTty.toSysTermios saneTermios) = saneTermios ∧
    ∃ read st', tcgetattr sysTty oneTerminal 0
        (linuxToBsdTermios sysTty.toSysTermios saneTermios) saneTermios saneTermios =
          some (0, read, st') ∧
      ∃ r st'', tcsetattr sysTty oneTerminal 0 0x10 read saneTermios st' = some (r, st'') ∧
        oneTerminal.settings st'' = oneTerminal.settings saneTermios ∧ r = 0 := by
  obtain ⟨hback, hkept⟩ := @termios_kept LinuxTermios Unit sysTty sysTty_documented saneTermios
    saneTermios_known
  obtain ⟨read, st', hget, hset⟩ := hkept oneTerminal oneTerminal_documented saneTermios 0 ()
    rfl rfl (linuxToBsdTermios sysTty.toSysTermios saneTermios) saneTermios
  obtain ⟨r, st'', hset, hsame, hzero⟩ := hset 0x10 saneTermios
  exact ⟨hback, read, st', hget, r, st'', hset, hsame, hzero (by decide)⟩

end LibSystem.Core
