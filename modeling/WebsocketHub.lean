import WebsocketHub.QueueLag
import WebsocketHub.QueueOwnership
import WebsocketHub.QueueTolerance
import WebsocketHub.QueueLinearization
import WebsocketHub.QueueWork
import WebsocketHub.QueueGrowth
import WebsocketHub.ChatroomClose
import WebsocketHub.ChatroomDeaf
import WebsocketHub.ChatroomDelivery
import WebsocketHub.ChatroomEnding
import WebsocketHub.ChatroomOrphan
import WebsocketHub.ChatroomRest
import WebsocketHub.ChatroomCount
import WebsocketHub.ServerRooms
import WebsocketHub.ServerNames
import WebsocketHub.ServerRecency
import WebsocketHub.ServerHub
import WebsocketHub.ChatroomInput
import WebsocketHub.ChatroomLinkText
import WebsocketHub.ChatroomAuthors
import WebsocketHub.ChatroomTab
import WebsocketHub.Utf
import WebsocketHub.WidgetLife
import WebsocketHub.Conversation
import WebsocketHub.ConversationRest
import WebsocketHub.ServerRest
import WebsocketHub.StressOutcome
import WebsocketHub.RoomUrl
import WebsocketHub.SiteRooms
import WebsocketHub.SiteRest
