import Magisk.Socket
import Magisk.Su.Handler

namespace Magisk.Su

open List

namespace SuRequest

/-- The fields in their order, as the derive macro writes them. -/
def codec : Codec SuRequest where
  encode req :=
    Codec.i32.encode req.targetUid ++ Codec.i32.encode req.targetPid ++
    Codec.bool.encode req.login ++ Codec.bool.encode req.keepEnv ++
    Codec.bool.encode req.dropCap ++ Codec.string.encode req.shell ++
    Codec.string.encode req.command ++ Codec.string.encode req.context ++
    Codec.u32.vec.encode req.gids
  decode r := do
    let (targetUid, r) ← Codec.i32.decode r
    let (targetPid, r) ← Codec.i32.decode r
    let (login, r) ← Codec.bool.decode r
    let (keepEnv, r) ← Codec.bool.decode r
    let (dropCap, r) ← Codec.bool.decode r
    let (shell, r) ← Codec.string.decode r
    let (command, r) ← Codec.string.decode r
    let (context, r) ← Codec.string.decode r
    let (gids, r) ← Codec.u32.vec.decode r
    return (⟨targetUid, targetPid, login, keepEnv, dropCap, shell, command, context, gids⟩, r)
  Fits req := Codec.string.Fits req.shell ∧ Codec.string.Fits req.command ∧
    Codec.string.Fits req.context ∧ Codec.u32.vec.Fits req.gids
  decode_encode req rest h := by
    obtain ⟨hs, hc, hx, hg⟩ := h
    simp only [append_assoc, Codec.i32.decode_encode _ _ trivial,
      Codec.bool.decode_encode _ _ trivial, Codec.string.decode_encode _ _ hs,
      Codec.string.decode_encode _ _ hc, Codec.string.decode_encode _ _ hx,
      Codec.u32.vec.decode_encode _ _ hg, bind, Except.bind]
    rfl

end SuRequest

/-- The options as `getopt_long` returns them, with their arguments. -/
inductive ClientOption
  /-- `-c`, with all the words from its argument on -/
  | command (words : List Str)
  | help
  | login
  | preserveEnvironment
  | shell (optarg : Str)
  | version
  | versionCode
  | context (optarg : Str)
  | mountMaster
  | target (optarg : Str)
  | group (optarg : Str)
  | suppGroup (optarg : Str)
  | interactive
  | dropCap
  | unknown
deriving DecidableEq, Repr

structure Build where
  version : Str
  verCode : Str

/-- The client prints a text and exits; some exits print the usage behind the text. -/
structure Exit where
  status : ℕ
  text : Str
  usage : Bool := true
deriving DecidableEq, Repr

structure Client where
  req : SuRequest := {}
  interactive : Bool := false
deriving DecidableEq, Repr

/-- The words with blanks between them; no blank stands behind empty words at the start. -/
def joinCommand (words : List Str) : Str :=
  words.foldl (fun command word => (if command ≠ [] then command ++ [' '] else command) ++ word) []

namespace Client

variable (s : Client)

def setTarget (pid : Int32) : Except Exit Client :=
  if s.req.targetPid ≠ -1 then .error ⟨1, "Can't use -M and -t at the same time\n".toList, true⟩
  else .ok { s with req := { s.req with targetPid := pid } }

def addGroup (gids : List UInt32) : Client :=
  { s with req := { s.req with gids := s.req.gids ++ gids } }

-- The vector is local to one option: `begin()` and `end()` are the same place in it.
def groupOption (c : Char) (optarg : Str) : Except Exit Client :=
  let gids : List UInt32 := []
  let gid := parseInt optarg
  if 0 ≤ gid then
    .ok (s.addGroup (if c = 'g' then gid.toUInt32 :: gids else gids ++ [gid.toUInt32]))
  else .error ⟨1, "Invalid GID: ".toList ++ optarg ++ ['\n'], true⟩

/-- One turn of the loop, for the options after which it goes on. -/
def option (build : Build) : ClientOption → Except Exit Client
  | .command words => .ok { s with req := { s.req with command := joinCommand words } }
  | .help => .error ⟨0, [], true⟩
  | .interactive => .ok { s with interactive := true }
  | .login => .ok { s with req := { s.req with login := true } }
  | .preserveEnvironment => .ok { s with req := { s.req with keepEnv := true } }
  | .dropCap => .ok { s with req := { s.req with dropCap := true } }
  | .shell optarg => .ok { s with req := { s.req with shell := optarg } }
  | .versionCode => .error ⟨0, build.verCode ++ ['\n'], false⟩
  | .version => .error ⟨0, build.version ++ ":MAGISKSU\n".toList, false⟩
  | .context optarg => .ok { s with req := { s.req with context := optarg } }
  | .mountMaster => s.setTarget 0
  | .target optarg => do
    let s ← s.setTarget (parseInt optarg)
    if optarg.head? = some '-' || s.req.targetPid = -1 then
      throw ⟨1, "Invalid PID: ".toList ++ optarg ++ ['\n'], true⟩
    return s
  | .group optarg => s.groupOption 'g' optarg
  | .suppGroup optarg => s.groupOption 'G' optarg
  | .unknown => .error ⟨2, ['\n'], true⟩

/-- The loop, and the words behind the options; `-c` takes all of these. -/
def options (build : Build) (args : List Str) : Client → List ClientOption →
    Except Exit (Client × List Str)
  | s, [] => .ok (s, args)
  | s, opt@(.command _) :: _ => do
    let s ← s.option build opt
    return (s, [])
  | s, opt :: opts => do
    let s ← s.option build opt
    options build args s opts

def login (args : List Str) : Client × List Str :=
  if args.head? = some ['-'] then ({ s with req := { s.req with login := true } }, args.tail)
  else (s, args)

def user (getpwnam : Str → Option UInt32) : List Str → Client
  | [] => s
  | name :: _ => { s with req := { s.req with
      targetUid := ((getpwnam name).map (·.toInt32)).getD (parseInt name) } }

end Client

def suClient (getpwnam : Str → Option UInt32) (build : Build) (opts : List ClientOption)
    (args : List Str) : Except Exit SuRequest := do
  let (s, args) ← Client.options build args {} opts
  let (s, args) := s.login args
  return (s.user getpwnam args).req

def MntNsMode.global : MntNsMode := ⟨0⟩

structure Identity where
  /-- what `setgroups` sets; nothing is set without groups -/
  groups : List UInt32
  gid : UInt32
  uid : Int32
deriving DecidableEq, Repr

def setIdentity (uid : Int32) (groups : List UInt32) : Identity :=
  ⟨groups, groups.headD uid.toUInt32, uid⟩

structure RootShell where
  targetPid : Int32
  mode : MntNsMode
  argv : List Str
  dropCaps : Bool
  /-- `none` where the shell keeps the identity of the daemon -/
  identity : Option Identity
deriving DecidableEq, Repr

def execRootShell (restricted : Bool) (pid : Int32) (req : SuRequest) (mode : MntNsMode) :
    RootShell where
  targetPid := if req.targetPid = -1 then pid else req.targetPid
  mode :=
    if req.targetPid = -1 then mode
    else if req.targetPid = 0 then .global
    else if mode = .global then .requester
    else mode
  argv := (if req.login then ['-'] else req.shell) ::
    if req.command ≠ [] then ["-c".toList, req.command] else []
  dropCaps := req.dropCap || restricted
  identity := if req.targetUid ≠ aidRoot || 0 < req.gids.length then
    some (setIdentity req.targetUid req.gids) else none

/-- A `-g` or a `-G`. -/
structure GroupOption where
  primary : Bool
  arg : Str
deriving DecidableEq, Repr

namespace GroupOption

def option (o : GroupOption) : ClientOption := if o.primary then .group o.arg else .suppGroup o.arg

def Valid (o : GroupOption) : Prop := 0 ≤ parseInt o.arg

instance (o : GroupOption) : Decidable o.Valid := inferInstanceAs (Decidable (0 ≤ parseInt o.arg))

def gid (o : GroupOption) : UInt32 := (parseInt o.arg).toUInt32

end GroupOption

theorem option_group (s : Client) (build : Build) {o : GroupOption} (h : o.Valid) :
    s.option build o.option = .ok (s.addGroup [o.gid]) := by
  unfold GroupOption.Valid at h
  unfold GroupOption.option GroupOption.gid
  split_ifs <;> simp [Client.option, Client.groupOption, h]

theorem options_groups (build : Build) (args : List Str) (s : Client) {opts : List GroupOption}
    (h : ∀ o ∈ opts, o.Valid) : Client.options build args s (opts.map GroupOption.option) =
      .ok (s.addGroup (opts.map GroupOption.gid), args) := by
  induction opts generalizing s with
  | nil => simp [Client.options, Client.addGroup]
  | cons o opts ih =>
    have hstep : Client.options build args s ((o :: opts).map GroupOption.option) =
        s.option build o.option >>= fun s =>
          Client.options build args s (opts.map GroupOption.option) := by
      unfold GroupOption.option
      rw [map_cons]
      split_ifs <;> rfl
    rw [hstep, option_group s build (h o mem_cons_self)]
    simp only [bind, Except.bind, ih _ fun p hp => h p (mem_cons_of_mem o hp)]
    simp [Client.addGroup]

theorem suClient_groups (getpwnam : Str → Option UInt32) (build : Build)
    {opts : List GroupOption} (h : ∀ o ∈ opts, o.Valid) (args : List Str) :
    ∃ req, suClient getpwnam build (opts.map GroupOption.option) args = .ok req ∧
      req.gids = opts.map GroupOption.gid ∧ req.shell = "/system/bin/sh".toList ∧
      req.command = [] ∧ req.context = [] := by
  refine ⟨_, by simp only [suClient, options_groups build args {} h, bind, Except.bind]; rfl, ?_⟩
  unfold Client.login Client.user
  split_ifs <;> split <;> simp [Client.addGroup]

theorem fits_of_groups {req : SuRequest} (hg : req.gids.length < 2 ^ 31)
    (hs : req.shell = "/system/bin/sh".toList) (hc : req.command = []) (hx : req.context = []) :
    SuRequest.codec.Fits req := by
  refine ⟨?_, ?_, ?_, hg, fun _ _ => trivial⟩
  · rw [hs]
    change (asBytes _).length < 2 ^ 31
    decide +kernel
  · rw [hc]
    change (asBytes _).length < 2 ^ 31
    decide
  · rw [hx]
    change (asBytes _).length < 2 ^ 31
    decide

theorem shell_gids {m m' : MagiskD} {call : Call} {policy : SuPolicy} {pid : Int32}
    {req req' : SuRequest} {mode : MntNsMode} (hreq : call.request = some req)
    (h : m.suDaemonHandler call = some (.shell policy pid req' mode, m')) :
    req'.gids = req.gids := by
  simp only [MagiskD.suDaemonHandler, hreq] at h
  split at h
  · simp at h
  · next settings _ =>
    split_ifs at h
    all_goals simp at h
    all_goals rw [← h.1.2.2.1]

theorem execRootShell_gid (restricted : Bool) (pid : Int32) {req : SuRequest} (mode : MntNsMode)
    {gid : UInt32} {gids : List UInt32} (h : req.gids = gid :: gids) :
    (execRootShell restricted pid req mode).identity.map Identity.gid = some gid := by
  simp [execRootShell, setIdentity, h]

/-- The primary group as the usage text has it: a group given with `-g`, and without any `-g` the
first one given with `-G`. -/
def ByUsage (opts : List GroupOption) (gid : Option UInt32) : Prop :=
  if ∃ o ∈ opts, o.primary = true then ∃ o ∈ opts, o.primary ∧ gid = some o.gid
  else ∀ o, opts.head? = some o → gid = some o.gid

/-- The group that comes first is also given with `-g`, if any is. -/
def PrimaryFirst (opts : List GroupOption) : Prop :=
  (∃ o ∈ opts, o.primary) →
    ∃ o ∈ opts, o.primary ∧ opts.head?.map GroupOption.gid = some o.gid

/-- The shell's primary group is the one of the usage text exactly if the group given first is one
given with `-g`, or there is no `-g`. -/
theorem primaryGroup_iff (opts : List GroupOption) (hvalid : ∀ o ∈ opts, o.Valid)
    (hargc : opts.length < 2 ^ 31) (getpwnam : Str → Option UInt32) (build : Build)
    (args : List Str) :
    ∃ sent received, suClient getpwnam build (opts.map GroupOption.option) args = .ok sent ∧
      SuRequest.codec.decode (SuRequest.codec.encode sent) = .ok (received, []) ∧
      ∀ (m m' : MagiskD) (call : Call) (policy : SuPolicy) (pid : Int32) (req : SuRequest)
        (mode : MntNsMode) (restricted : Bool), call.request = some received →
        m.suDaemonHandler call = some (.shell policy pid req mode, m') →
        (ByUsage opts ((execRootShell restricted pid req mode).identity.map Identity.gid) ↔
          PrimaryFirst opts) := by
  obtain ⟨sent, hsent, hgids, hshell, hcommand, hcontext⟩ :=
    suClient_groups getpwnam build hvalid args
  have hlen : sent.gids.length < 2 ^ 31 := by
    rw [hgids, length_map]
    exact hargc
  have hdecode := SuRequest.codec.decode_encode sent [] (fits_of_groups hlen hshell hcommand hcontext)
  rw [append_nil] at hdecode
  refine ⟨sent, sent, hsent, hdecode, ?_⟩
  intro m m' call policy pid req mode restricted hrequest houtcome
  have hreq : req.gids = opts.map GroupOption.gid := (shell_gids hrequest houtcome).trans hgids
  cases opts with
  | nil => simp [ByUsage, PrimaryFirst]
  | cons first opts =>
    rw [execRootShell_gid restricted pid mode hreq]
    unfold ByUsage PrimaryFirst
    split_ifs with hp
    · simp only [hp, true_imp_iff, head?_cons, Option.map_some]
    · simp only [hp, false_imp_iff, head?_cons, Option.some.injEq, forall_eq']

def rootCall (req : SuRequest) : Call :=
  { MagiskD.sampleCall [] with cred := ⟨0, some 4000⟩, request := some req }

theorem rootCall_shell (req : SuRequest) : ∃ m',
    MagiskD.sampleDevice.suDaemonHandler (rootCall req) =
      some (.shell .allow 4000 req .requester, m') :=
  ⟨_, rfl⟩

/-- With `-g 3003 -G 1004` the primary group is 3003. -/
theorem primaryGroup_group_first :
    ByUsage [⟨true, "3003".toList⟩, ⟨false, "1004".toList⟩]
      ((execRootShell false 4000 { gids := [3003, 1004] } .requester).identity.map Identity.gid) := by
  obtain ⟨sent, received, hsent, hreceived, h⟩ :=
    primaryGroup_iff [⟨true, "3003".toList⟩, ⟨false, "1004".toList⟩] (by decide) (by decide)
      (fun _ => none) ⟨[], []⟩ []
  have hs : sent = { gids := [3003, 1004] } := by
    apply Except.ok.inj
    rw [← hsent]
    decide +kernel
  have hr : received = { gids := [3003, 1004] } := by
    have hd : SuRequest.codec.decode (SuRequest.codec.encode { gids := [3003, 1004] }) =
        .ok ({ gids := [3003, 1004] }, []) := by decide +kernel
    rw [hs, hd] at hreceived
    exact (Prod.ext_iff.mp (Except.ok.inj hreceived)).1.symm
  obtain ⟨m', hm⟩ := rootCall_shell { gids := [3003, 1004] }
  apply (h _ m' _ _ _ _ _ false (congrArg some hr.symm) hm).mpr
  exact fun _ => ⟨⟨true, "3003".toList⟩, mem_cons_self, rfl, rfl⟩

/-- With `-G 1004 -g 3003` it is 1004. -/
theorem primaryGroup_supp_first :
    suClient (fun _ => none) ⟨[], []⟩ [.suppGroup "1004".toList, .group "3003".toList] [] =
      .ok { gids := [1004, 3003] } ∧
    (∃ m', MagiskD.sampleDevice.suDaemonHandler (rootCall { gids := [1004, 3003] }) =
      some (.shell .allow 4000 { gids := [1004, 3003] } .requester, m')) ∧
    ¬ ByUsage [⟨false, "1004".toList⟩, ⟨true, "3003".toList⟩]
      ((execRootShell false 4000 { gids := [1004, 3003] } .requester).identity.map Identity.gid) := by
  refine ⟨by decide +kernel, rootCall_shell _, ?_⟩
  unfold ByUsage
  decide +kernel

end Magisk.Su
