import CellHive.Go.Strings
import CellHive.Util.Prefixes

/-!
# The origins of a database proxy

`internal/proxysql`: the rows of a resource are kept under its hostgroup, a hash of its name. Two
resources can share a hostgroup, and a statement only finds the rows of the protocol and the user
it is given. A sequence of calls keeps the resources apart when neither happens.

The tables are those of the admin interface; `LOAD` and `SAVE` copy them. A URL is given by what
`url.Parse` makes of it, with and without the blanks around it.
-/

namespace CellHive.ProxySQL

open Go

inductive Protocol
  | mysql
  | pgsql
deriving DecidableEq, Repr

instance : Fintype Protocol := ⟨{.mysql, .pgsql}, by rintro (_ | _) <;> simp⟩

structure Server where
  hostgroup : Nat
  hostname : Str
  port : Str
deriving DecidableEq, Repr

structure User where
  username : Str
  password : Str
  hostgroup : Nat
deriving DecidableEq, Repr

@[ext]
structure Tables where
  servers : Protocol → List Server
  users : Protocol → List User
deriving DecidableEq

def Tables.empty : Tables := ⟨fun _ => [], fun _ => []⟩

inductive Stmt
  | deleteServers (p : Protocol) (hg : Nat)
  | insertServer (p : Protocol) (row : Server)
  | deleteUser (p : Protocol) (username : Str) (hg : Nat)
  | insertUser (p : Protocol) (row : User)
  | loadServers (p : Protocol)
  | loadUsers (p : Protocol)
  | saveServers (p : Protocol)
  | saveUsers (p : Protocol)
deriving DecidableEq, Repr

def Tables.exec (t : Tables) : Stmt → Tables
  | .deleteServers p hg =>
    { t with servers := Function.update t.servers p ((t.servers p).filter (·.hostgroup ≠ hg)) }
  | .insertServer p row => { t with servers := Function.update t.servers p (t.servers p ++ [row]) }
  | .deleteUser p username hg =>
    { t with
      users := Function.update t.users p
        ((t.users p).filter fun u => ¬ (u.username = username ∧ u.hostgroup = hg)) }
  | .insertUser p row => { t with users := Function.update t.users p (t.users p ++ [row]) }
  | .loadServers _ | .loadUsers _ | .saveServers _ | .saveUsers _ => t

/-- FNV-1a -/
def fnv1a (bytes : List UInt8) : UInt32 :=
  bytes.foldl (fun h b => (h ^^^ b.toUInt32) * 16777619) 2166136261

def hostgroup (ns name : Str) : Nat :=
  1000 + (fnv1a ((ns ++ '/' :: name).flatMap String.utf8EncodeChar)).toNat % 50000

structure URL where
  scheme : Str
  hostname : Str
  port : Str
  user : Option (Str × Str)
deriving DecidableEq, Repr

/-- What `url.Parse` makes of a text, and of the text without the blanks around it. -/
structure OriginURL where
  trimmed : Option URL
  whole : Option URL
deriving DecidableEq, Repr

structure Origin where
  ns : Str
  name : Str
  url : OriginURL
  clientUser : Str
  clientPassword : Str
deriving DecidableEq, Repr

inductive Err
  | invalidURL
  | invalidPort
  | unsupportedScheme (scheme : Str)
deriving DecidableEq, Repr

def protocolOf (scheme : Str) : Except Err Protocol :=
  if scheme.map Char.toLower = "mysql".toList then .ok .mysql
  else if scheme.map Char.toLower = "postgres".toList ∨
    scheme.map Char.toLower = "postgresql".toList then
    .ok .pgsql
  else .error (.unsupportedScheme scheme)

/-- The rows an origin asks for. -/
structure Target where
  protocol : Protocol
  server : Server
  user : Option User
deriving DecidableEq, Repr

def originPort (u : URL) : Str :=
  if u.port = [] then
    if u.scheme.map Char.toLower = "mysql".toList then "3306".toList else "5432".toList
  else u.port

def credentials (o : Origin) (u : URL) : Str × Str :=
  if o.clientUser ≠ [] then (o.clientUser, o.clientPassword) else u.user.getD ([], [])

/-- The parsing half of `Statements`. -/
def target (o : Origin) : Except Err Target :=
  match o.url.trimmed with
  | none => .error .invalidURL
  | some u =>
    if u.hostname = [] then .error .invalidURL
    -- a port that `url.Parse` accepts is made of digits, so `Atoi` fails on its range only
    else if (parseUint 63 (originPort u)).isNone then .error .invalidPort
    else
      let (user, pass) := credentials o u
      let hg := hostgroup o.ns o.name
      match protocolOf u.scheme with
      | .error e => .error e
      | .ok p =>
        .ok ⟨p, ⟨hg, u.hostname, originPort u⟩, if user ≠ [] then some ⟨user, pass, hg⟩ else none⟩

def Target.statements (g : Target) : List Stmt :=
  [.deleteServers g.protocol g.server.hostgroup, .insertServer g.protocol g.server] ++
  (match g.user with
    | some u => [.deleteUser g.protocol u.username u.hostgroup, .insertUser g.protocol u]
    | none => []) ++
  [.loadServers g.protocol, .loadUsers g.protocol]

def statements (o : Origin) : Except Err (List Stmt) := (target o).map Target.statements

def appendSave (stmts : List Stmt) (url : OriginURL) : Except Err (List Stmt) :=
  match url.whole with
  | none => .error .invalidURL
  | some u =>
    let p : Protocol := if u.scheme.map Char.toLower = "mysql".toList then .mysql else .pgsql
    .ok (stmts ++ [.saveServers p, .saveUsers p])

/-- The statements of one endpoint, up to the first that fails. -/
def execStmts (fails : Nat → Bool) : Nat → List Stmt → Tables → Tables × Option Stmt
  | _, [], t => (t, none)
  | j, q :: stmts, t => if fails j then (t, some q) else execStmts fails (j + 1) stmts (t.exec q)

/-- The endpoints after the statements, with the statement that failed at each. `fails` are the
endpoints and positions at which the proxy answers with an error. -/
def execAll (fails : List (Nat × Nat)) (stmts : List Stmt) (dbs : List Tables) :
    List (Tables × Option Stmt) :=
  dbs.mapIdx fun i t => execStmts (fun j => fails.contains (i, j)) 0 stmts t

def syncStatements (save : Bool) (o : Origin) : Except Err (List Stmt) :=
  match statements o with
  | .error e => .error e
  | .ok stmts => if save then appendSave stmts o.url else .ok stmts

/-- The user whose row `Remove` deletes. -/
def removedUser (url : URL) (clientUser : Str) : Option Str :=
  let user := if clientUser = [] then (url.user.getD ([], [])).1 else clientUser
  if user ≠ [] then some user else none

def removeStatements (save : Bool) (ns name : Str) (url : OriginURL) (clientUser : Str) :
    Except Err (List Stmt) :=
  match url.trimmed with
  | none => .error .invalidURL
  | some u =>
    let hg := hostgroup ns name
    match protocolOf u.scheme with
    | .error e => .error e
    | .ok p =>
      .ok ([.deleteServers p hg] ++
        (match removedUser u clientUser with
          | some user => [.deleteUser p user hg]
          | none => []) ++
        [.loadServers p, .loadUsers p] ++
        if save then [.saveServers p, .saveUsers p] else [])

/-! ## Sequences of calls -/

abbrev Resource := Str × Str

inductive Op
  | sync (o : Origin)
  | remove (ns name : Str) (url : OriginURL) (clientUser : Str)
deriving DecidableEq, Repr

def Op.resource : Op → Resource
  | .sync o => (o.ns, o.name)
  | .remove ns name _ _ => (ns, name)

structure Call where
  op : Op
  fails : List (Nat × Nat)
deriving DecidableEq, Repr

/-- The endpoints, with the resources that were synchronised and not removed since. -/
structure State where
  dbs : List Tables
  live : List (Resource × Target)
deriving DecidableEq

def syncOrigin (save : Bool) (s : State) (o : Origin) (fails : List (Nat × Nat)) : State :=
  match syncStatements save o, target o with
  | .ok stmts, .ok g =>
    { dbs := (execAll fails stmts s.dbs).map Prod.fst
      live := s.live.filter (·.1 ≠ (o.ns, o.name)) ++ [((o.ns, o.name), g)] }
  | _, _ => s

def remove (save : Bool) (s : State) (ns name : Str) (url : OriginURL) (clientUser : Str)
    (fails : List (Nat × Nat)) : State :=
  match removeStatements save ns name url clientUser with
  | .ok stmts =>
    { dbs := (execAll fails stmts s.dbs).map Prod.fst
      live := s.live.filter (·.1 ≠ (ns, name)) }
  | .error _ => s

def step (save : Bool) (s : State) (c : Call) : State :=
  match c.op with
  | .sync o => syncOrigin save s o c.fails
  | .remove ns name url clientUser => remove save s ns name url clientUser c.fails

/-- The calls, over `n` endpoints that start empty. -/
def run (save : Bool) (n : Nat) (calls : List Call) : State :=
  calls.foldl (step save) ⟨List.replicate n Tables.empty, []⟩

def Tables.group (t : Tables) (hg : Nat) : Tables :=
  ⟨fun p => (t.servers p).filter (·.hostgroup = hg), fun p => (t.users p).filter (·.hostgroup = hg)⟩

/-- The rows of a hostgroup that describe an origin and nothing else. -/
def Target.rows (g : Target) : Tables :=
  ⟨fun p => if p = g.protocol then [g.server] else [],
    fun p => if p = g.protocol then g.user.toList else []⟩

/-- After a call every live resource has its own rows, and those of the other resources are as
before. -/
def Isolated (s : State) (c : Call) (s' : State) : Prop :=
  (∀ t ∈ s'.dbs, ∀ x ∈ s'.live, t.group (hostgroup x.1.1 x.1.2) = x.2.rows) ∧
  ∀ x ∈ s.live, x.1 ≠ c.op.resource →
    s'.dbs.map (·.group (hostgroup x.1.1 x.1.2)) = s.dbs.map (·.group (hostgroup x.1.1 x.1.2))

/-- The statements of a call find every row of the live origin `g`. -/
def Op.covers (op : Op) (g : Target) : Bool :=
  match op with
  | .sync o =>
    match target o with
    | .error _ => true
    | .ok g' =>
      g'.protocol = g.protocol &&
        (g.user.isNone || g'.user.map User.username = g.user.map User.username)
  | .remove _ _ url clientUser =>
    match url.trimmed with
    | none => true
    | some u =>
      match protocolOf u.scheme with
      | .error _ => true
      | .ok p =>
        p = g.protocol && (g.user.isNone || removedUser u clientUser = g.user.map User.username)

/-- No statement fails, no other live resource has the hostgroup, and the call names the protocol
and the user of the origin that is live. -/
def Apart (s : State) (c : Call) : Prop :=
  c.fails = [] ∧ ∀ x ∈ s.live,
    if x.1 = c.op.resource then c.op.covers x.2 = true
    else hostgroup x.1.1 x.1.2 ≠ hostgroup c.op.resource.1 c.op.resource.2

instance (s : State) (c : Call) : Decidable (Apart s c) := by
  unfold Apart
  infer_instance

instance (s : State) (c : Call) (s' : State) : Decidable (Isolated s c s') := by
  unfold Isolated
  infer_instance

/-! ## The statements of a call -/

section Statements

variable {t : Tables} {hg : Nat} {p : Protocol}

theorem execAll_nil (stmts : List Stmt) (dbs : List Tables) :
    (execAll [] stmts dbs).map Prod.fst = dbs.map fun t => stmts.foldl Tables.exec t := by
  have hrun : ∀ (stmts : List Stmt) (j : Nat) (t : Tables),
      (execStmts (fun _ => false) j stmts t).1 = stmts.foldl Tables.exec t := by
    intro stmts
    induction stmts with
    | nil => intro j t; rfl
    | cons q stmts ih => intro j t; exact ih (j + 1) _
  apply List.ext_getElem <;> simp [execAll, hrun]

/-- The hostgroup a statement names. -/
def Stmt.hostgroup : Stmt → Option Nat
  | .deleteServers _ hg | .deleteUser _ _ hg => some hg
  | .insertServer _ row => some row.hostgroup
  | .insertUser _ row => some row.hostgroup
  | _ => none

theorem group_servers (rows : List Server) :
    { t with servers := Function.update t.servers p rows }.group hg =
      { t.group hg with
        servers := Function.update (t.group hg).servers p (rows.filter (·.hostgroup = hg)) } :=
  Tables.ext (funext fun p' => Function.apply_update (fun _ => List.filter _) _ p rows p') rfl

theorem group_users (rows : List User) :
    { t with users := Function.update t.users p rows }.group hg =
      { t.group hg with
        users := Function.update (t.group hg).users p (rows.filter (·.hostgroup = hg)) } :=
  Tables.ext rfl (funext fun p' => Function.apply_update (fun _ => List.filter _) _ p rows p')

theorem group_exec_of_ne {q : Stmt} (h : ∀ g ∈ q.hostgroup, g ≠ hg) :
    (t.exec q).group hg = t.group hg := by
  have hservers {p : Protocol} {rows : List Server}
      (hrows : rows.filter (·.hostgroup = hg) = (t.group hg).servers p) :
      { t with servers := Function.update t.servers p rows }.group hg = t.group hg := by
    rw [group_servers, hrows, Function.update_eq_self]
  have husers {p : Protocol} {rows : List User}
      (hrows : rows.filter (·.hostgroup = hg) = (t.group hg).users p) :
      { t with users := Function.update t.users p rows }.group hg = t.group hg := by
    rw [group_users, hrows, Function.update_eq_self]
  cases q with
  | deleteServers p g =>
    have hne : g ≠ hg := h g rfl
    refine hservers ?_
    rw [List.filter_filter]
    exact List.filter_congr fun x _ => by grind
  | insertServer p row => exact hservers (by simp [Tables.group, h _ rfl])
  | deleteUser p username g =>
    have hne : g ≠ hg := h g rfl
    refine husers ?_
    rw [List.filter_filter]
    exact List.filter_congr fun x _ => by grind
  | insertUser p row => exact husers (by simp [Tables.group, h _ rfl])
  | loadServers | loadUsers | saveServers | saveUsers => rfl

theorem group_exec_of_eq {q : Stmt} (h : ∀ g ∈ q.hostgroup, g = hg) :
    (t.exec q).group hg = (t.group hg).exec q := by
  cases q with
  | deleteServers p g =>
    rw [Tables.exec, group_servers, List.filter_comm]
    rfl
  | insertServer p row =>
    rw [Tables.exec, group_servers, List.filter_append]
    simp [h _ rfl, Tables.exec, Tables.group]
  | deleteUser p username g =>
    rw [Tables.exec, group_users, List.filter_comm]
    rfl
  | insertUser p row =>
    rw [Tables.exec, group_users, List.filter_append]
    simp [h _ rfl, Tables.exec, Tables.group]
  | loadServers | loadUsers | saveServers | saveUsers => rfl

variable {stmts : List Stmt} {g : Target}

theorem group_foldl_of_ne (h : ∀ q ∈ stmts, ∀ g ∈ q.hostgroup, g ≠ hg) (t : Tables) :
    (stmts.foldl Tables.exec t).group hg = t.group hg := by
  induction stmts generalizing t with
  | nil => rfl
  | cons q stmts ih =>
    rw [List.foldl_cons, ih fun q' hq' => h q' (List.mem_cons_of_mem q hq')]
    exact group_exec_of_ne (h q List.mem_cons_self)

theorem group_foldl_of_eq (h : ∀ q ∈ stmts, ∀ g ∈ q.hostgroup, g = hg) (t : Tables) :
    (stmts.foldl Tables.exec t).group hg = stmts.foldl Tables.exec (t.group hg) := by
  induction stmts generalizing t with
  | nil => rfl
  | cons q stmts ih =>
    rw [List.foldl_cons, ih fun q' hq' => h q' (List.mem_cons_of_mem q hq'),
      group_exec_of_eq (h q List.mem_cons_self), List.foldl_cons]

theorem target_hostgroup {o : Origin} (h : target o = .ok g) :
    g.server.hostgroup = hostgroup o.ns o.name ∧ ∀ u ∈ g.user,
      u.hostgroup = hostgroup o.ns o.name := by
  unfold target at h
  split at h
  · cases h
  split at h
  · cases h
  split at h
  · cases h
  dsimp only at h
  split at h
  · cases h
  cases h
  refine ⟨rfl, fun u hu => ?_⟩
  split at hu <;> cases hu
  rfl

/-- The rows of a hostgroup are of a protocol, and those of users have a name: the statements for
that protocol and name find them all. -/
structure Found (t : Tables) (hg : Nat) (p : Protocol) (user : Option Str) : Prop where
  other : ∀ p', p' ≠ p → (t.group hg).servers p' = [] ∧ (t.group hg).users p' = []
  names : ∀ u ∈ (t.group hg).users p, user = some u.username

theorem removals_hostgroup {user : Option Str} : ∀ q ∈ [Stmt.deleteServers p hg] ++
    (user.map fun user => Stmt.deleteUser p user hg).toList, ∀ k ∈ q.hostgroup, k = hg := by
  intro q hq k hk
  cases user <;> simp at hq <;> grind [Stmt.hostgroup]

theorem group_remove {user : Option Str} (hfound : Found t hg p user) :
    (([Stmt.deleteServers p hg] ++ (user.map fun user => Stmt.deleteUser p user hg).toList).foldl
      Tables.exec t).group hg = Tables.empty := by
  have hservers : ((t.group hg).servers p).filter (·.hostgroup ≠ hg) = [] := by
    simp [Tables.group, List.filter_filter]
  have husers (name : Str) (hname : user = some name) :
      ((t.group hg).users p).filter (fun u => ¬ (u.username = name ∧ u.hostgroup = hg)) = [] := by
    rw [List.filter_eq_nil_iff]
    intro u hu
    have hhg : u.hostgroup = hg := by simpa using (List.mem_filter.mp hu).2
    have hu' := (hfound.names u hu).symm.trans hname
    simpa [hhg] using hu'
  rw [group_foldl_of_eq removals_hostgroup]
  ext1 <;> funext p' <;> by_cases hp : p' = p
  · subst hp
    cases user <;> simpa [Tables.exec, Tables.empty] using hservers
  · cases user <;> simpa [Tables.exec, Tables.empty, hp] using (hfound.other p' hp).1
  · subst hp
    cases user with
    | none =>
      refine List.eq_nil_iff_forall_not_mem.mpr fun u hu => ?_
      cases hfound.names u hu
    | some name => simpa [Tables.exec, Tables.empty] using husers name rfl
  · cases user <;> simpa [Tables.exec, Tables.empty, hp] using (hfound.other p' hp).2

theorem group_statements (hserver : g.server.hostgroup = hg)
    (huser : ∀ u ∈ g.user, u.hostgroup = hg)
    (hfound : Found t hg g.protocol (g.user.map User.username)) :
    (g.statements.foldl Tables.exec t).group hg = g.rows := by
  obtain ⟨protocol, server, user⟩ := g
  have hsplit : (Target.mk protocol server user).statements.foldl Tables.exec t =
      (.insertServer protocol server :: (user.map (Stmt.insertUser protocol)).toList).foldl
        Tables.exec (([Stmt.deleteServers protocol hg] ++ ((user.map User.username).map
          fun user => Stmt.deleteUser protocol user hg).toList).foldl Tables.exec t) := by
    subst hserver
    cases user with
    | none => rfl
    | some u => simp [Target.statements, Tables.exec, huser u rfl]
  rw [hsplit, group_foldl_of_eq, group_remove hfound]
  · ext1 <;> funext p <;> cases user <;>
      simp [Tables.exec, Tables.empty, Target.rows, Function.update_apply]
  · intro q hq g hg'
    cases user <;> simp at hq <;> grind [Stmt.hostgroup]

theorem syncStatements_eq_ok {save : Bool} {o : Origin} (h : syncStatements save o = .ok stmts) :
    ∃ g, target o = .ok g ∧ ∃ saves, stmts = g.statements ++ saves ∧
      ∀ q ∈ saves, q.hostgroup = none := by
  unfold syncStatements statements at h
  cases htarget : target o with
  | error e =>
    rw [htarget] at h
    cases h
  | ok g =>
    rw [htarget] at h
    dsimp only [Except.map] at h
    refine ⟨g, rfl, ?_⟩
    split at h
    · unfold appendSave at h
      split at h
      · cases h
      cases h
      refine ⟨_, rfl, fun q hq => ?_⟩
      simp only [List.mem_cons, List.not_mem_nil, or_false] at hq
      rcases hq with rfl | rfl <;> rfl
    · cases h
      exact ⟨[], by simp, nofun⟩

theorem foldl_exec_of_idle {saves : List Stmt} (h : ∀ q ∈ saves, q.hostgroup = none)
    (t : Tables) : saves.foldl Tables.exec t = t := by
  induction saves with
  | nil => rfl
  | cons q saves ih =>
    have hq : t.exec q = t := by
      have hnone := h q List.mem_cons_self
      cases q <;> first | rfl | cases hnone
    rw [List.foldl_cons, hq, ih fun q' hq' => h q' (List.mem_cons_of_mem q hq')]

theorem statements_hostgroup (hserver : g.server.hostgroup = hg)
    (huser : ∀ u ∈ g.user, u.hostgroup = hg) : ∀ q ∈ g.statements, ∀ k ∈ q.hostgroup, k = hg := by
  obtain ⟨protocol, server, user⟩ := g
  intro q hq k hk
  cases user with
  | none =>
    simp only [Target.statements, List.append_nil, List.cons_append, List.nil_append, List.mem_cons,
      List.not_mem_nil, or_false] at hq
    rcases hq with rfl | rfl | rfl | rfl <;> cases hk <;> exact hserver
  | some u =>
    simp only [Target.statements, List.cons_append, List.nil_append, List.mem_cons,
      List.not_mem_nil, or_false] at hq
    rcases hq with rfl | rfl | rfl | rfl | rfl | rfl <;> cases hk
    · exact hserver
    · exact hserver
    · exact huser u rfl
    · exact huser u rfl

theorem removeStatements_eq_ok {save : Bool} {ns name : Str} {url : OriginURL} {clientUser : Str}
    (h : removeStatements save ns name url clientUser = .ok stmts) :
    ∃ u p, url.trimmed = some u ∧ protocolOf u.scheme = .ok p ∧
      ∃ loads, stmts = [.deleteServers p (hostgroup ns name)] ++
          ((removedUser u clientUser).map fun user => Stmt.deleteUser p user
            (hostgroup ns name)).toList ++
          loads ∧
        ∀ q ∈ loads, q.hostgroup = none := by
  unfold removeStatements at h
  split at h
  · cases h
  next u hu =>
  split at h
  · cases h
  next p hp =>
  cases h
  refine ⟨u, p, hu, hp, [.loadServers p, .loadUsers p] ++
    (if save then [.saveServers p, .saveUsers p] else []), ?_, ?_⟩
  · cases removedUser u clientUser <;> simp
  · intro q hq
    have hcases : q = .loadServers p ∨ q = .loadUsers p ∨ q = .saveServers p ∨
      q = .saveUsers p := by
      cases save <;> simp at hq <;> tauto
    rcases hcases with rfl | rfl | rfl | rfl <;> rfl

theorem Found.of_empty (h : t.group hg = Tables.empty) (user : Option Str) : Found t hg p user := by
  constructor
  · intro p' _
    rw [h]
    exact ⟨rfl, rfl⟩
  · intro u hu
    rw [h] at hu
    cases hu

theorem Found.of_rows {user : Option Str} (h : t.group hg = g.rows)
    (huser : g.user = none ∨ user = g.user.map User.username) : Found t hg g.protocol user := by
  constructor
  · intro p' hp'
    rw [h]
    simp [Target.rows, hp']
  · intro u hu
    rw [h] at hu
    simp only [Target.rows, if_true, Option.mem_toList] at hu
    rcases huser with hnone | rfl
    · rw [hnone] at hu
      cases hu
    · rw [hu]
      rfl

end Statements

/-! ## Runs -/

section Runs

variable {save : Bool} {s : State} {c : Call}

/-- The hostgroups of the live resources have their rows, the others none. -/
structure Inv (s : State) : Prop where
  rows : ∀ t ∈ s.dbs, ∀ x ∈ s.live, t.group (hostgroup x.1.1 x.1.2) = x.2.rows
  idle : ∀ t ∈ s.dbs, ∀ k, (∀ x ∈ s.live, hostgroup x.1.1 x.1.2 ≠ k) → t.group k = Tables.empty

theorem inv_run_nil (save : Bool) (n : Nat) : Inv (run save n []) := by
  constructor
  · intro t _ x hx
    cases hx
  · intro t ht k _
    rw [List.eq_of_mem_replicate ht]
    rfl

theorem Inv.found (hinv : Inv s) (hapart : Apart s c) {t : Tables} (ht : t ∈ s.dbs) {p : Protocol}
    {user : Option Str} (hcovers : ∀ g, c.op.covers g = true →
      p = g.protocol ∧ (g.user = none ∨ user = g.user.map User.username)) :
    Found t (hostgroup c.op.resource.1 c.op.resource.2) p user := by
  by_cases hlive : ∃ x ∈ s.live, x.1 = c.op.resource
  · obtain ⟨x, hx, hr⟩ := hlive
    have hlast := hapart.2 x hx
    rw [if_pos hr] at hlast
    obtain ⟨rfl, huser⟩ := hcovers x.2 hlast
    exact .of_rows (hr ▸ hinv.rows t ht x hx) huser
  · refine .of_empty (hinv.idle t ht _ fun x hx => ?_) user
    have hne := hapart.2 x hx
    rwa [if_neg fun hr => hlive ⟨x, hx, hr⟩] at hne

/-- A call that changes one hostgroup only, and leaves there the rows of the resource if it is live
afterwards. -/
theorem inv_of_exec {stmts : List Stmt} {added : List (Resource × Target)} (hinv : Inv s)
    (hapart : Apart s c)
    (hstmts : ∀ q ∈ stmts, ∀ k ∈ q.hostgroup, k = hostgroup c.op.resource.1 c.op.resource.2)
    (hadded : ∀ x ∈ added, x.1 = c.op.resource ∧ ∀ t ∈ s.dbs,
      (stmts.foldl Tables.exec t).group (hostgroup x.1.1 x.1.2) = x.2.rows)
    (hnone : added = [] → ∀ t ∈ s.dbs,
      (stmts.foldl Tables.exec t).group (hostgroup c.op.resource.1 c.op.resource.2) =
        Tables.empty) :
    let s' : State :=
      ⟨(execAll c.fails stmts s.dbs).map Prod.fst, s.live.filter (·.1 ≠ c.op.resource) ++ added⟩
    Inv s' ∧ Isolated s c s' := by
  intro s'
  have hdbs : s'.dbs = s.dbs.map fun t => stmts.foldl Tables.exec t := by
    change (execAll c.fails stmts s.dbs).map Prod.fst = _
    rw [hapart.1, execAll_nil]
  have hkeep : ∀ k, k ≠ hostgroup c.op.resource.1 c.op.resource.2 → ∀ t : Tables,
      (stmts.foldl Tables.exec t).group k = t.group k := by
    intro k hk t
    apply group_foldl_of_ne
    intro q hq k' hk'
    rw [hstmts q hq k' hk']
    exact hk.symm
  have hother : ∀ x ∈ s.live, x.1 ≠ c.op.resource →
      hostgroup x.1.1 x.1.2 ≠ hostgroup c.op.resource.1 c.op.resource.2 := by
    intro x hx hr
    have hne := hapart.2 x hx
    rwa [if_neg hr] at hne
  have hrows : ∀ t ∈ s'.dbs, ∀ x ∈ s'.live, t.group (hostgroup x.1.1 x.1.2) = x.2.rows := by
    intro t' ht' x hx
    rw [hdbs, List.mem_map] at ht'
    obtain ⟨t, ht, rfl⟩ := ht'
    rcases List.mem_append.mp hx with hx | hx
    · obtain ⟨hx, hr⟩ := List.mem_filter.mp hx
      rw [hkeep _ (hother x hx (by simpa using hr))]
      exact hinv.rows t ht x hx
    · exact (hadded x hx).2 t ht
  refine ⟨⟨hrows, ?_⟩, hrows, ?_⟩
  · intro t' ht' k hk
    rw [hdbs, List.mem_map] at ht'
    obtain ⟨t, ht, rfl⟩ := ht'
    by_cases hkr : k = hostgroup c.op.resource.1 c.op.resource.2
    · subst hkr
      refine hnone (List.eq_nil_iff_forall_not_mem.mpr fun x hx => ?_) t ht
      exact hk x (List.mem_append_right _ hx) (by rw [(hadded x hx).1])
    · rw [hkeep k hkr]
      refine hinv.idle t ht k fun x hx hxk => ?_
      by_cases hr : x.1 = c.op.resource
      · exact hkr (by rw [← hxk, hr])
      · exact hk x (List.mem_append_left _ (List.mem_filter.mpr ⟨hx, by simpa using hr⟩)) hxk
  · intro x hx hr
    rw [hdbs, List.map_map]
    exact List.map_congr_left fun t _ => hkeep _ (hother x hx hr) t

theorem inv_syncOrigin {o : Origin} (hop : c.op = .sync o) (hinv : Inv s) (hapart : Apart s c) :
    Inv (syncOrigin save s o c.fails) ∧ Isolated s c (syncOrigin save s o c.fails) := by
  unfold syncOrigin
  split
  · next stmts g hstmts hg =>
    obtain ⟨g', hg', saves, rfl, hsaves⟩ := syncStatements_eq_ok hstmts
    obtain rfl : g' = g := by rw [hg] at hg'; exact (Except.ok.inj hg').symm
    obtain ⟨hserver, huser⟩ := target_hostgroup hg
    have hr : c.op.resource = (o.ns, o.name) := by rw [hop]; rfl
    rw [← hr]
    apply inv_of_exec hinv hapart
    · intro q hq k hk
      rw [hr]
      rcases List.mem_append.mp hq with hq | hq
      · exact statements_hostgroup hserver huser q hq k hk
      · rw [hsaves q hq] at hk
        cases hk
    · intro x hx
      obtain rfl := List.mem_singleton.mp hx
      refine ⟨rfl, fun t ht => ?_⟩
      rw [List.foldl_append, foldl_exec_of_idle hsaves, hr]
      refine group_statements hserver huser (hr ▸ hinv.found hapart ht fun g' hcovers => ?_)
      simpa [hop, Op.covers, hg] using hcovers
    · simp
  · exact ⟨hinv, hinv.rows, fun x _ _ => rfl⟩

theorem inv_remove {ns name : Str} {url : OriginURL} {clientUser : Str}
    (hop : c.op = .remove ns name url clientUser) (hinv : Inv s) (hapart : Apart s c) :
    Inv (remove save s ns name url clientUser c.fails) ∧
      Isolated s c (remove save s ns name url clientUser c.fails) := by
  unfold remove
  split
  · next stmts hstmts =>
    obtain ⟨u, p, hu, hp, loads, rfl, hloads⟩ := removeStatements_eq_ok hstmts
    have hr : c.op.resource = (ns, name) := by rw [hop]; rfl
    rw [← hr, ← List.append_nil (s.live.filter _)]
    apply inv_of_exec hinv hapart
    · intro q hq k hk
      rw [hr]
      rcases List.mem_append.mp hq with hq | hq
      · exact removals_hostgroup q hq k hk
      · rw [hloads q hq] at hk
        cases hk
    · nofun
    · intro _ t ht
      rw [List.foldl_append, foldl_exec_of_idle hloads, hr]
      have hfound : Found t (hostgroup c.op.resource.1 c.op.resource.2) p
          (removedUser u clientUser) :=
        hinv.found hapart ht fun g' hcovers => by simpa [hop, Op.covers, hu, hp] using hcovers
      rw [hr] at hfound
      exact group_remove hfound
  · exact ⟨hinv, hinv.rows, fun x _ _ => rfl⟩

theorem inv_step (hinv : Inv s) (hapart : Apart s c) :
    Inv (step save s c) ∧ Isolated s c (step save s c) := by
  unfold step
  split
  · next o hop => exact inv_syncOrigin hop hinv hapart
  · next ns name url clientUser hop => exact inv_remove hop hinv hapart

/-- Every call that is apart from the resources live before it leaves them isolated. -/
theorem origins_isolated (save : Bool) (n : Nat) (calls : List Call)
    (hapart : ∀ before c, before ++ [c] <+: calls → Apart (run save n before) c) :
    ∀ before c, before ++ [c] <+: calls →
      Isolated (run save n before) c (run save n (before ++ [c])) := by
  intro before c hc
  have hinv : Inv (run save n before) :=
    Util.invariant_of_steps (inv_run_nil save n)
      (fun s ev hs hev => (inv_step hs hev).1) hapart before
      ((List.prefix_append before [c]).trans hc)
  have hrun : run save n (before ++ [c]) = step save (run save n before) c := by
    simp only [run, List.foldl_append, List.foldl_cons, List.foldl_nil]
  rw [hrun]
  exact (inv_step hinv (hapart before c hc)).2

def originAt (name host : Str) : Origin :=
  let url : URL := ⟨"mysql".toList, host, [], some ("app".toList, "pw".toList)⟩
  ⟨['a'], name, ⟨some url, some url⟩, [], []⟩

def twoOrigins : List Call :=
  [⟨.sync (originAt ['x'] ['h', '1']), []⟩, ⟨.sync (originAt ['y'] ['h', '2']), []⟩,
    ⟨.remove ['a'] ['x'] (originAt ['x'] ['h', '1']).url [], []⟩]

theorem origins_isolated_twoOrigins :
    (∀ before c, before ++ [c] <+: twoOrigins → Apart (run true 1 before) c) ∧
      ∀ before c, before ++ [c] <+: twoOrigins →
        Isolated (run true 1 before) c (run true 1 (before ++ [c])) := by
  have hapart : ∀ before c, before ++ [c] <+: twoOrigins → Apart (run true 1 before) c := by
    decide +kernel
  exact ⟨hapart, origins_isolated true 1 twoOrigins hapart⟩

/-- `t2` and `5a` share a hostgroup in namespace `a`: the second origin replaces the first. -/
theorem hostgroup_collision_replaces_origin :
    let c : Call := ⟨.sync (originAt ['5', 'a'] ['h', '2']), []⟩
    let s := run false 1 [⟨.sync (originAt ['t', '2'] ['h', '1']), []⟩]
    hostgroup ['a'] ['t', '2'] = hostgroup ['a'] ['5', 'a'] ∧ ¬ Isolated s c (step false s c) := by
  decide +kernel

end Runs

end CellHive.ProxySQL
