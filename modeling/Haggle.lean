import Haggle.Bytes
import Haggle.HashMap
import Haggle.HashMapBuckets
import Haggle.HashMapValues
import Haggle.HashMapEntries
import Haggle.HashMapOrder
import Haggle.AssocList
import Haggle.Attribute
import Haggle.Timeval
import Haggle.Base64
import Haggle.Metadata
import Haggle.FileSystem
import Haggle.DataObject
import Haggle.ParserStability
import Haggle.PutData
import Haggle.PutDataFeed
import Haggle.PutDataChunks
import Haggle.PutDataSentinel
import Haggle.Trace
import Haggle.ReceiveBuffer
import Haggle.CountingFilter
import Haggle.Bloomfilter
import Haggle.ByteOrder
import Haggle.FilterWire
import Haggle.FilterOperation
import Haggle.FilterMerge
import Haggle.FilterCounting
import Haggle.FilterPublished
import Haggle.ReceiveDataObject
import Haggle.SendDataObject
import Haggle.Transfer
import Haggle.SendSafety
import Haggle.ReceiveSafety
import Haggle.TransferSafety
import Haggle.SecurityManager
import Haggle.SecurityEnforcement
import Haggle.DataManager
import Haggle.LocalFilter
import Haggle.Verification
import Haggle.FilePathSearch
import Haggle.StoragePaths
import Haggle.ReceivedFiles
import Haggle.Confinement
import Haggle.ObjectMetadata
import Haggle.ObjectSerialise
import Haggle.ObjectHistory
import Haggle.ObjectWire
import Haggle.ObjectReceive
import Haggle.ObjectIdentity
import Haggle.ObjectContent
import Haggle.LibMetadata
import Haggle.LibDataObject
import Haggle.LibObjectTree
import Haggle.LibPayload
import Haggle.LibIdentity
import Haggle.MinHeap
import Haggle.EventQueue
import Haggle.Scheduler
import Haggle.KernelReadiness
import Haggle.SendQueue
import Haggle.ProtocolRun
import Haggle.ProtocolTeardown
import Haggle.SendMoves
import Haggle.SendLedger
import Haggle.SendControl
import Haggle.KernelControl
import Haggle.SendResults
import Haggle.FilterReceived
import Haggle.TaskQueue
import Haggle.Forwarding
import Haggle.SqlText
import Haggle.RepositoryText
import Haggle.Repository
import Haggle.Relational
import Haggle.Matching
import Haggle.SqlInsert
import Haggle.Printed
import Haggle.StoredObject
import Haggle.StoredObjectRead
import Haggle.Node
import Haggle.StoredNode
import Haggle.StoredNodeWrite
import Haggle.StoredNodeRead
import Haggle.FilterMatching
import Haggle.StoreQueries
import Haggle.QueryHistory
import Haggle.ObjectStore
import Haggle.NodeDescriptions
import Haggle.DeletionEvents
import Haggle.SendList
import Haggle.Cascade
import Haggle.RoutingUpdates
import Haggle.DoubleText
import Haggle.Prophet
import Haggle.ProphetMetrics
import Haggle.ProphetTables
import Haggle.ProphetExchange
import Haggle.InterfaceStore
import Haggle.InterfaceRecords
import Haggle.NodeStore
import Haggle.NodeRecords
import Haggle.NodeManager
import Haggle.NodePeers
import Haggle.NodeContacts
import Haggle.NodeFreshness
import Haggle.ApplicationManager
import Haggle.ApplicationControl
import Haggle.ApplicationClients
import Haggle.ApplicationShutdown
import Haggle.ApplicationDelivery
import Haggle.ApplicationInterests
import Haggle.Aging
import Haggle.EventLog
import Haggle.NewObjects
import Haggle.MetadataRoundTrip
import Haggle.MetadataAgreement
import Haggle.LibReading
import Haggle.LibNumbers
import Haggle.LibRewriting
import Haggle.LibRoundTrip
import Haggle.Address
import Haggle.InterfaceWire
import Haggle.QueueRetrieve
import Haggle.CertificateStore
import Haggle.InterfacePresence
import Haggle.Blacklist
import Haggle.Base64Buffer
import Haggle.ControlIdentity
import Haggle.HeaderSearch
import Haggle.XmlWriter
import Haggle.HeaderDetection
import Haggle.StartupFile
import Haggle.PutDataBoundary
import Haggle.Retriever
import Haggle.ObjectTransfer
import Haggle.MetadataPaths
import Haggle.LocalPaths
import Haggle.ControlRepetition
import Haggle.AgedObjects
import Haggle.AgingProgress
import Haggle.ParentLookup
import Haggle.SendUniqueness
import Haggle.SendDispatch
import Haggle.DelegateQuery
import Haggle.NodeRanking
import Haggle.FilterCounts
import Haggle.FilterEvaluation
import Haggle.InterfaceOwners
import Haggle.OwnedLinks
import Haggle.DerivedCounters
import Haggle.ObjectInsertion
import Haggle.AcceptedMetadata
import Haggle.Pool
import Haggle.ReferenceCounting
import Haggle.ReferenceInvariant
import Haggle.ReferenceDeletion
import Haggle.ReferenceRuns
import Haggle.FilterObjects
import Haggle.FilterAccounting
import Haggle.BeaconTiming
import Haggle.UntrustedIdentifiers
import Haggle.InterfaceSubtrees
import Haggle.InterfaceAging
import Haggle.InterfaceLinks
import Haggle.PeriodicQueries
import Haggle.RoutingBatches
import Haggle.ProphetSelection
import Haggle.OpenRequests
import Haggle.DescriptionSends
import Haggle.DescriptionRetries
import Haggle.FilterParameters
import Haggle.NodeIdCodec
import Haggle.FilterString
import Haggle.Tokens
import Haggle.LibAttributeString
import Haggle.TimevalText
import Haggle.ProphetSaving
import Haggle.LinkedRing
import Haggle.AttributeLists
import Haggle.SequenceLists
import Haggle.HashMapIterators
import Haggle.HashMapPrograms
import Haggle.SortedEntries
import Haggle.OrderedMaps
import Haggle.FiniteMaps
import Haggle.MultiMaps
import Haggle.TimevalArithmetic
import Haggle.MemoryCompare
import Haggle.InterfaceOrder
import Haggle.StringBuffer
import Haggle.StringOrder
import Haggle.StringSearch
import Haggle.ItemHeap
import Haggle.MetadataCursor
import Haggle.LibMetadataTree
import Haggle.LibMetadataCursor
import Haggle.StringWrites
import Haggle.StringPrograms
