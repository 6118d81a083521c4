import Nca.CoreDS.ConnectivitySpace
import Mathlib.Data.String.Basic

/-!
The printed form of connectivity properties: a dictionary for every cube, with the texts of the values
that are not the whole domain.
-/

namespace Nca.CoreDS
open Lib Python Space CanonicalHyperCubeSet

/-- `sep.join(xs)`. -/
def join (sep : String) (xs : List String) : String := sep.intercalate xs

namespace ProtocolNameResolver

def protocolNumberToNameDict : List (Int × String) :=
  [(0, "HOPOPT"), (1, "ICMP"), (2, "IGMP"), (3, "GGP"), (4, "IPv4"), (5, "ST"), (6, "TCP"), (7, "CBT"),
    (8, "EGP"), (9, "IGP"), (10, "BBNRCCMON"), (11, "NVPII"), (12, "PUP"), (13, "ARGUSdeprecated"),
    (14, "EMCON"), (15, "XNET"), (16, "CHAOS"), (17, "UDP"), (18, "MUX"), (19, "DCNMEAS"),
    (20, "HMP"), (21, "PRM"), (22, "XNSIDP"), (23, "TRUNK1"), (24, "TRUNK2"), (25, "LEAF1"),
    (26, "LEAF2"), (27, "RDP"), (28, "IRTP"), (29, "ISOTP4"), (30, "NETBLT"), (31, "MFENSP"),
    (32, "MERITINP"), (33, "DCCP"), (34, "3PC"), (35, "IDPR"), (36, "XTP"), (37, "DDP"),
    (38, "IDPRCMTP"), (39, "TP"), (40, "IL"), (41, "IPv6"), (42, "SDRP"), (43, "IPv6Route"),
    (44, "IPv6Frag"), (45, "IDRP"), (46, "RSVP"), (47, "GRE"), (48, "DSR"), (49, "BNA"), (50, "ESP"),
    (51, "AH"), (52, "INLSP"), (53, "SWIPEdeprecated"), (54, "NARP"), (55, "MOBILE"), (56, "TLSP"),
    (57, "SKIP"), (58, "ICMPv6"), (59, "IPv6NoNxt"), (60, "IPv6Opts"), (62, "CFTP"),
    (64, "SATEXPAK"), (65, "KRYPTOLAN"), (66, "RVD"), (67, "IPPC"), (69, "SATMON"), (70, "VISA"),
    (71, "IPCV"), (72, "CPNX"), (73, "CPHB"), (74, "WSN"), (75, "PVP"), (76, "BRSATMON"),
    (77, "SUNND"), (78, "WBMON"), (79, "WBEXPAK"), (80, "ISOIP"), (81, "VMTP"), (82, "SECUREVMTP"),
    (83, "VINES"), (84, "IPTM"), (85, "NSFNETIGP"), (86, "DGP"), (87, "TCF"), (88, "EIGRP"),
    (89, "OSPFIGP"), (90, "SpriteRPC"), (91, "LARP"), (92, "MTP"), (93, "AX25"), (94, "IPIP"),
    (95, "MICPdeprecated"), (96, "SCCSP"), (97, "ETHERIP"), (98, "ENCAP"), (100, "GMTP"),
    (101, "IFMP"), (102, "PNNI"), (103, "PIM"), (104, "ARIS"), (105, "SCPS"), (106, "QNX"),
    (107, "AN"), (108, "IPComp"), (109, "SNP"), (110, "CompaqPeer"), (111, "IPXinIP"),
    (112, "VRRP"), (113, "PGM"), (115, "L2TP"), (116, "DDX"), (117, "IATP"), (118, "STP"),
    (119, "SRP"), (120, "UTI"), (121, "SMP"), (122, "SMdeprecated"), (123, "PTP"),
    (124, "ISISoverIPv4"), (125, "FIRE"), (126, "CRTP"), (127, "CRUDP"), (128, "SSCOPMCE"),
    (129, "IPLT"), (130, "SPS"), (131, "PIPE"), (132, "SCTP"), (133, "FC"), (134, "RSVPE2EIGNORE"),
    (135, "MobilityHeader"), (136, "UDPLite"), (137, "MPLSinIP"), (138, "manet"), (139, "HIP"),
    (140, "Shim6"), (141, "WESP"), (142, "ROHC"), (143, "Ethernet")]

def getProtocolName (protocol_number : Int) : Except Failure String :=
  if ¬ (0 ≤ protocol_number ∧ protocol_number ≤ 255) then
    .error (.raised "Protocol number must be in the range 0-255")
  else pure ((Dict.get protocolNumberToNameDict protocol_number).getD (toString protocol_number))

end ProtocolNameResolver

/-- The names of all numbers in the intervals of a set. -/
def namesOfSet (first last : Int) (name : Int → Except Failure String) (interval_set : CanonicalIntervalSet) :
    Except Failure (List String) :=
  interval_set.interval_set.foldlM (fun res interval => do
    assert (first ≤ interval.start ∧ interval.end_ ≤ last)
    pure (res ++ (← (range interval.start (interval.end_ + 1)).mapM name))) []

namespace ProtocolSet

def wholeRange : CanonicalIntervalSet := ⟨[⟨0, 255⟩]⟩

def getProtocolNamesFromIntervalSet : CanonicalIntervalSet → Except Failure (List String) :=
  namesOfSet 0 255 ProtocolNameResolver.getProtocolName

/-- `str(protocols)`. -/
def str (protocols : CanonicalIntervalSet) : Except Failure String :=
  if protocols = wholeRange then pure "*"
  else if !protocols.bool then pure "Empty"
  else do
    let protocol_names ← getProtocolNamesFromIntervalSet protocols
    let compl_protocol_names ← getProtocolNamesFromIntervalSet (wholeRange.sub protocols)
    pure (if protocol_names.length ≤ compl_protocol_names.length then join ", " protocol_names
      else "all but " ++ join ", " compl_protocol_names)

end ProtocolSet

namespace MethodSet

def allMethodsList : List String :=
  ["GET", "HEAD", "POST", "PUT", "DELETE", "CONNECT", "OPTIONS", "TRACE", "PATCH"]

def wholeRange : CanonicalIntervalSet := ⟨[⟨0, 8⟩]⟩

def getMethodNamesFromIntervalSet : CanonicalIntervalSet → Except Failure (List String) :=
  namesOfSet 0 8 (item allMethodsList)

/-- `list.remove`. -/
def remove (names : List String) (name : String) : Except Failure (List String) :=
  if name ∈ names then pure (names.erase name) else .error (.raised "ValueError")

/-- `str(methods)`. -/
def str (methods : CanonicalIntervalSet) : Except Failure String :=
  if methods = wholeRange then pure "*"
  else if !methods.bool then pure "Empty"
  else do
    let method_names ← getMethodNamesFromIntervalSet methods
    let compl_method_names ← method_names.foldlM remove allMethodsList
    pure (if method_names.length ≤ compl_method_names.length then join ", " method_names
      else "all but " ++ join ", " compl_method_names)

end MethodSet

/-- A number alone or a range, as `get_interval_set_list_numbers_and_ranges` lists them. -/
def numberOrRange (interval : Interval) : String :=
  if interval.start = interval.end_ then toString interval.start
  else toString interval.start ++ "-" ++ toString interval.end_

def numbersAndRanges (s : CanonicalIntervalSet) : String := join "," (s.interval_set.map numberOrRange)

/-- The escape of a character in `repr` of a text with this quote. -/
def escapeChar (printable : Char → Bool) (quote c : Char) : String :=
  if c = quote ∨ c = '\\' then String.ofList ['\\', c]
  else if c = '\n' then "\\n"
  else if c = '\r' then "\\r"
  else if c = '\t' then "\\t"
  else if printable c then c.toString
  else
    let digits := String.ofList (Nat.toDigits 16 c.toNat)
    let padded (width : Nat) := String.ofList (List.replicate (width - digits.length) '0') ++ digits
    if c.toNat < 256 then "\\x" ++ padded 2
    else if c.toNat < 65536 then "\\u" ++ padded 4
    else "\\U" ++ padded 8

/-- `repr(text)`. -/
def reprText (printable : Char → Bool) (text : String) : String :=
  let quote := if '\'' ∈ text.toList ∧ '"' ∉ text.toList then '"' else '\''
  quote.toString ++ String.join (text.toList.map (escapeChar printable quote)) ++ quote.toString

/-- `str(d)` of a dictionary of texts. -/
def strDict (printable : Char → Bool) (d : List (String × String)) : String :=
  "\x7b" ++ join ", " (d.map fun e => reprText printable e.1 ++ ": " ++ reprText printable e.2) ++ "\x7d"

/-- What the texts depend on: the registered peers and their names, and which characters are printable. -/
structure Printing (K : Type) where
  peers : RegisteredPeers K
  heap : Objects K
  full_name : Objects K → PeerRef K → String
  printable : Char → Bool

/-- Connectivity properties with the texts of their automata, which tell how these were made. -/
structure PrintedProperties (D : Type) where
  props : CanonicalHyperCubeSet (DfaElem D)
  dfa_text : List (LayerElem (DfaElem D)) → String → String

variable {D K : Type} [MinDFA D] [DecidableEq K]

section Print
variable (space : Space (DfaElem D)) (printing : Printing K) (self : PrintedProperties D)

/-- The text of a value of a cube that is not the whole domain. -/
def valueText (cube : List (LayerElem (DfaElem D))) (dim : String) :
    LayerElem (DfaElem D) → Except Failure String
  | .intervals s =>
    if dim = "protocols" then ProtocolSet.str s
    else if dim = "methods" then MethodSet.str s
    else if dim = "src_peers" ∨ dim = "dst_peers" then do
      let (peers_set, heap) ← printing.peers.getPeerSetByIndices printing.heap s
      let peers ← item heap.sets peers_set
      pure (join "," ((peers.map (printing.full_name heap)).mergeSort fun a b => decide (a ≤ b)))
    else pure (numbersAndRanges s)
  | .dfa _ => pure (self.dfa_text cube dim)

/-- `get_cube_dict(cube, True)`. -/
def getCubeDict (cube : List (LayerElem (DfaElem D))) : Except Failure (List (String × String)) :=
  (self.props.active_dimensions.zip cube).foldlM (fun cube_dict entry => do
    let dim_domain ← space.manager.getDimensionDomainByName entry.1
    if dim_domain = entry.2 then pure cube_dict
    else pure (Dict.set cube_dict entry.1 (← valueText printing self cube entry.1 entry.2))) []

/-- `str(self)`. -/
def strProperties : Except Failure String :=
  if self.props.isAll then pure "All connections"
  else if !self.props.bool then pure "No connections"
  else if self.props.active_dimensions = ["dst_ports"] then do
    assert ((← len space self.props) = 1)
    match ← iter space self.props with
    | (.intervals s :: _) :: _ => pure (numbersAndRanges s)
    | (_ :: _) :: _ => .error .attribute
    | _ => .error .index
  else do
    let cubes_dict_list ← (← iter space self.props).mapM (getCubeDict space printing self)
    pure (join "," (cubes_dict_list.map (strDict printing.printable)))

/-- `self < other`. -/
def ltProperties (other : PrintedProperties D) : Except Failure Bool := do
  if (← len space self.props) < (← len space other.props) then pure true
  else pure (decide ((← strProperties space printing self) < (← strProperties space printing other)))

end Print

end Nca.CoreDS
