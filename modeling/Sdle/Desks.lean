import Sdle.Sessions
import Sdle.WholeSystem

/-!
# Sessions and servers together

The whole system again, with clients that are operated by sessions: each step of a client is a screen
that it renders, with any lines and any failing statements; a reply that it gets meanwhile is one that
some server has told.

* `whole_system_plain` — **all items are plain, wherever they are**: in the stores of the clients, in
  the rows of the servers, in what they collect and send.
-/

set_option autoImplicit false

namespace Sdle

open Sql Sql.Call ClientStorage ClientDb Tasks Peer ServerStorage Cli

/-- The lines that will be typed, and the statements that will fail. -/
def Cli.Terminal.fed (t : Terminal) (stdin : List (Option String))
    (reads writes : List (Option StorageError)) : Terminal :=
  { t with stdin, conn := { t.conn with reads, writes } }

variable {hash : String → U128}

/-- The terminals of all clients, the lists that they have sent, what has happened at the servers, and
the servers. -/
structure Desks (hash : String → U128) where
  terminal : Uuid → Terminal
  sent : List ShoppingList
  evs : History hash
  servers : Config (cluster hash)

namespace Desks

/-- Every client has an empty store and its main menu, and nothing has happened at the servers. -/
def start (w₀ : World hash) : Desks hash := ⟨fun _ => .new (.calm .empty) [], [], [], quiet w₀⟩

/-- The stores and the servers. -/
def system (d : Desks hash) : System hash :=
  ⟨fun client => (d.terminal client).conn.db, d.sent, [], d.evs, d.servers⟩

/-- A step: a client renders its screen or is started again, sends a list that it reads, or the servers
do something. -/
inductive Step : Desks hash → Desks hash → Prop
  | render {d : Desks hash} {env : Env} {stdin : List (Option String)}
      {reads writes : List (Option StorageError)} {t : Terminal} {r : Except Stop Unit}
      (hopen : (d.terminal env.clientId).isDone = false)
      (htold : ∀ m, env.viewing.ackList = some m → ∃ ev ∈ d.evs, m ∈ told ev)
      (hrun : render env ((d.terminal env.clientId).fed stdin reads writes) = (r, t)) :
      Step d { d with terminal := Function.update d.terminal env.clientId t }
  | again {d : Desks hash} {client : Uuid} :
      Step d { d with
        terminal := Function.update d.terminal client (.new (d.terminal client).conn []) }
  | send {d : Desks hash} {client id : Uuid} {l : ShoppingList}
      (hread : (readShoppingList client id).Returns (d.terminal client).conn.db l
        (d.terminal client).conn.db) :
      Step d { d with sent := l :: d.sent }
  | server {d : Desks hash} {ev : Event (cluster hash)} {servers : Config (cluster hash)}
      (hsent : ∀ l, submission ev = some l → l ∈ d.sent)
      (hstep : Tasks.Step (cluster hash) d.servers ev servers) :
      Step d { d with evs := ev :: d.evs, servers }

/-- The runs. -/
inductive Run (w₀ : World hash) : Desks hash → Prop
  | start : Run w₀ (start w₀)
  | step {d d' : Desks hash} (hrun : Run w₀ d) (hstep : Step d d') : Run w₀ d'

end Desks

/-- What the clients hold and send is plain, and the servers get nothing else. -/
structure PlainDesks (w₀ : World hash) (d : Desks hash) : Prop where
  tidy : ∀ client, Tidy (d.terminal client)
  sent : ∀ l ∈ d.sent, l.Plain
  servers : Run (cluster hash) anyStep (quiet w₀) d.evs d.servers
  honest : ∀ ev ∈ d.evs, ∀ l, submission ev = some l → l.Plain

variable {w₀ : World hash} {d d' : Desks hash}

theorem PlainDesks.merged (h : PlainDesks w₀ d) (hw : w₀.Settled)
    (hempty : ∀ u, (w₀.node u).storage = .empty)
    (hinj : Set.InjOn (key hash) {id | submitted d.evs id ≠ []}) :
    Merged ShoppingList.Plain d.evs d.servers.state :=
  kept_by_servers closed_plain hw hempty h.servers (fun _ hX => hX) hinj h.honest

theorem tidy_update {terminal : Uuid → Terminal} {client : Uuid} {t : Terminal}
    (h : ∀ u, Tidy (terminal u)) (ht : Tidy t) (u : Uuid) : Tidy (Function.update terminal client t u) := by
  by_cases hu : u = client
  · rw [hu, Function.update_self]
    exact ht
  · rw [Function.update_of_ne hu]
    exact h u

theorem PlainDesks.step (h : PlainDesks w₀ d) (hmerged : Merged ShoppingList.Plain d.evs d.servers.state)
    (hstep : Desks.Step d d') : PlainDesks w₀ d' := by
  cases hstep with
  | @render env stdin reads writes t r hopen htold hrun =>
    have henv : env.PlainReply := by
      intro m hm
      obtain ⟨ev, hev, htold⟩ := htold m hm
      exact hmerged.told ev hev m htold
    have htidy := h.tidy env.clientId
    have hfed : Tidy ((d.terminal env.clientId).fed stdin reads writes) :=
      ⟨⟨htidy.db.distinct, htidy.db.items⟩, htidy.screen, htidy.printed⟩
    have ht := (tidy_render env henv).inv _ hfed
    rw [hrun] at ht
    exact ⟨tidy_update h.tidy ht, h.sent, h.servers, h.honest⟩
  | @again client =>
    exact ⟨tidy_update h.tidy (tidy_new (h.tidy client).db), h.sent, h.servers, h.honest⟩
  | @send client id l hread =>
    refine ⟨h.tidy, fun x hx => ?_, h.servers, h.honest⟩
    rcases List.mem_cons.1 hx with rfl | hx
    · exact (h.tidy client).db.read hread
    · exact h.sent x hx
  | @server ev servers hsent hstep =>
    refine ⟨h.tidy, h.sent, .step h.servers trivial hstep, fun ev' hev l hl => ?_⟩
    rcases List.mem_cons.1 hev with rfl | hev
    · exact h.sent l (hsent l hl)
    · exact h.honest ev' hev l hl

theorem Desks.Step.submitted (hstep : Desks.Step d d') {id : Uuid} (h : submitted d.evs id ≠ []) :
    submitted d'.evs id ≠ [] := by
  cases hstep with
  | @server ev servers hsent hstep =>
    obtain ⟨new, hnew⟩ := submitted_cons ev d.evs id
    change Sdle.submitted (ev :: d.evs) id ≠ []
    rw [hnew]
    exact fun hnil => h (List.append_eq_nil_iff.1 hnil).2
  | _ => exact h

theorem plainDesks (hw : w₀.Settled) (hempty : ∀ u, (w₀.node u).storage = .empty)
    (h : Desks.Run w₀ d) (hinj : Set.InjOn (key hash) {id | submitted d.evs id ≠ []}) :
    PlainDesks w₀ d := by
  induction h with
  | start =>
    exact ⟨fun _ => tidy_new plainDb_empty, fun l hl => absurd hl List.not_mem_nil, .init,
      fun ev hev => absurd hev List.not_mem_nil⟩
  | step _ hstep ih =>
    have hinj := hinj.mono fun _ hX => hstep.submitted hX
    have hplain := ih hinj
    exact hplain.step (hplain.merged hw hempty hinj) hstep

/-- **All items are plain, wherever they are**, if the clients are operated by sessions. -/
theorem whole_system_plain (hw : w₀.Settled) (hempty : ∀ u, (w₀.node u).storage = .empty)
    (h : Desks.Run w₀ d) (hinj : Set.InjOn (key hash) {id | submitted d.evs id ≠ []}) :
    (∀ client id name row, (d.terminal client).conn.db.items.find? (id, name) = some row →
      PlainItem name row.acquired) ∧ ∀ l, d.system.AtServers l → l.Plain := by
  have hplain := plainDesks hw hempty h hinj
  refine ⟨fun client id name row hrow => ?_, fun l hl => ?_⟩
  · exact (hplain.tidy client).db.items id name _ (content_eq_some hrow)
  · exact (hplain.merged hw hempty hinj).atServers hl

/-- A run of the servers, once the clients have sent what is submitted in it. -/
theorem Desks.Run.serve {D : Discipline (cluster hash)} {terminal : Uuid → Terminal}
    {sent : List ShoppingList} (h : Desks.Run w₀ ⟨terminal, sent, [], quiet w₀⟩)
    {evs : History hash} {c : Config (cluster hash)} (hrun : Tasks.Run (cluster hash) D (quiet w₀) evs c)
    (hsent : ∀ ev ∈ evs, ∀ l, submission ev = some l → l ∈ sent) :
    Desks.Run w₀ ⟨terminal, sent, evs, c⟩ := by
  induction hrun with
  | init => exact h
  | step _ _ hstep ih =>
    exact .step (ih fun ev hev => hsent ev (List.mem_cons_of_mem _ hev))
      (.server (hsent _ List.mem_cons_self) hstep)

/-- Client 201 has put one milk on list 101, on its second screen, and has sent the list. -/
theorem desks_milk :
    ∃ terminal, Desks.Run threeServers ⟨terminal, [oneItem "milk" 201], [], quiet threeServers⟩ := by
  have hmenu : Desks.Step (Desks.start threeServers) _ :=
    @Desks.Step.render md5 _ milkEnv ["c"] [] [] _ _ rfl (fun m hm => by cases hm) rfl
  have hcreate := Desks.Run.step (.step .start hmenu)
    (@Desks.Step.render md5 _ milkEnv ["a", "milk", "1"] [] [] _ _ (by rfl) (fun m hm => by cases hm)
      (by rfl))
  refine ⟨_, hcreate.step (@Desks.Step.send md5 _ (.ofTail 201) (.ofTail 101) _ (returns_of_calm ?_))⟩
  decide +kernel

theorem whole_system_plain_milk :
    ∃ d : Desks md5, Desks.Run threeServers d ∧
      ∃ r, (d.servers.state.node (.ofTail 3)).storage.rows.find? (key md5 (.ofTail 101)) = some r ∧
        r.crdtData.Plain := by
  obtain ⟨evs, c, hrun, hcheck⟩ := exists_run (D := anyStep) (fun _ _ _ => true)
    (fun _ _ _ _ => trivial) (quiet threeServers) putReplicated
    (fun evs c => (evs.filterMap submission).all (fun l => l = oneItem "milk" 201) &&
      ((c.state.node (.ofTail 3)).storage.rows.find? (key md5 (.ofTail 101))).isSome)
    (by decide +kernel)
  obtain ⟨hsubmitted, hrow⟩ := Bool.and_eq_true_iff.1 hcheck
  obtain ⟨r, hr⟩ := Option.isSome_iff_exists.1 hrow
  have hmilk : ∀ l ∈ evs.filterMap submission, l = oneItem "milk" 201 := fun l hl =>
    of_decide_eq_true (List.all_eq_true.1 hsubmitted l hl)
  obtain ⟨terminal, hclients⟩ := desks_milk
  have hdesks := hclients.serve hrun fun ev hev l hl =>
    List.mem_singleton.2 (hmilk l (List.mem_filterMap.2 ⟨ev, hev, hl⟩))
  have hinj : Set.InjOn (key md5) {id | submitted evs id ≠ []} :=
    (Set.injOn_singleton (key md5) (.ofTail 101)).mono
      (ids_of_submissions fun l hl => congrArg ShoppingList.id (hmilk l hl))
  obtain ⟨-, hservers⟩ := whole_system_plain (settled_joined md5 _) (fun _ => rfl) hdesks hinj
  exact ⟨_, hdesks, r, hr, hservers r.crdtData (.row hr rfl)⟩

end Sdle
